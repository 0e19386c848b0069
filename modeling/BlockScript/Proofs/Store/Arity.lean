import BlockScript.Proofs.Store.Building
import BlockScript.Proofs.Store.Upkeep

/-!
# As many arguments as parameters

Functions are found by their arity, so a call has an argument for each parameter. What the body of a
function reads of its arguments is then there.
-/

namespace BlockScript

/-! ## Native bodies -/

/-- The functions that are in every store from the beginning. -/
inductive Primitive
  | range
  | length
  | charAt
  | suffix
  | substring
  | integerAbs
  | decimalAbs

namespace Primitive

open Native

/-- The number of the function in every store. -/
def id : Primitive → FunctionId
  | range => Store.rangeId
  | length => ⟨1⟩
  | charAt => ⟨2⟩
  | suffix => ⟨3⟩
  | substring => ⟨4⟩
  | integerAbs => ⟨5⟩
  | decimalAbs => ⟨6⟩

/-- The number of arguments, the receiver of a method counted. -/
abbrev arity : Primitive → Nat
  | length | integerAbs | decimalAbs => 1
  | range | charAt | suffix => 2
  | substring => 3

/-- The native body, which takes a list of any length. -/
def run : Primitive → List Value → Except Breakdown Value
  | range => Native.range
  | length => stringLength
  | charAt => stringCharAt
  | suffix | substring => stringSubstring
  | integerAbs => Native.integerAbs
  | decimalAbs => Native.decimalAbs

/-- The part of a string between two indices. -/
def slice (s : String) (start stop : Int) : Except Breakdown Value :=
  if start < 0 || s.length < stop || stop < start then
    .error (.cause (.sliceOutOfRange start stop s.length))
  else
    .ok (.string (String.ofList ((s.toList.take stop.toNat).drop start.toNat)))

/-- What the function computes of its arguments. There is no other argument to be read. -/
def compute : (b : Primitive) → (Fin b.arity → Value) → Except Breakdown Value
  | range, args => return .range (← asInteger (args 0)) (← asInteger (args 1))
  | length, args => return .integer (← asString (args 0)).length
  | charAt, args => do
    let s ← asString (args 0)
    let i ← asInteger (args 1)
    match (if i < 0 then none else s.toList[i.toNat]?) with
    | some c => return .character c
    | none => .error (.cause (.indexOutOfRange i s.length))
  | suffix, args => do
    let s ← asString (args 0)
    slice s (← asInteger (args 1)) s.length
  | substring, args => do
    let s ← asString (args 0)
    let start ← asInteger (args 1)
    slice s start (← asInteger (args 2))
  | integerAbs, args => return .integer (← asInteger (args 0)).natAbs
  | decimalAbs, args => do Value.ofArithmetic (← asDecimal (args 0)).abs

/-- The native body computes the function from the arguments by themselves if all are there. -/
theorem run_eq_compute (b : Primitive) {args : List Value} (h : b.arity = args.length) :
    b.run args = b.compute fun i => args.get (i.cast h) := by
  cases b with
  | length | integerAbs | decimalAbs =>
    match args, h with
    | [v], _ => rfl
  | range | charAt | suffix =>
    match args, h with
    | [v, w], _ => rfl
  | substring =>
    match args, h with
    | [v, w, x], _ => rfl

theorem function_initial (b : Primitive) :
    (Store.initial.function b.id).arity = b.arity ∧
      (Store.initial.function b.id).body = .native b.run := by
  cases b <;> exact ⟨rfl, rfl⟩

theorem index_lt (b : Primitive) : b.id.index < Store.initial.functions.size := by
  cases b <;> decide

theorem exists_id {f : FunctionId} (hf : f.index < Store.initial.functions.size) :
    ∃ b : Primitive, b.id = f := by
  obtain ⟨i⟩ := f
  have hi : i < 7 := hf
  match i, hi with
  | 0, _ => exact ⟨range, rfl⟩
  | 1, _ => exact ⟨length, rfl⟩
  | 2, _ => exact ⟨charAt, rfl⟩
  | 3, _ => exact ⟨suffix, rfl⟩
  | 4, _ => exact ⟨substring, rfl⟩
  | 5, _ => exact ⟨integerAbs, rfl⟩
  | 6, _ => exact ⟨decimalAbs, rfl⟩

end Primitive

/-- The body counts on `n` arguments where it is not a host's. -/
def Body.CountsOn (n : Nat) : Body → Prop
  | .method d _ => d.params.length = n
  | .print => n = 1
  | .absent | .native _ => True

theorem Body.IsForeign.countsOn {body : Body} (h : body.IsForeign) (n : Nat) : body.CountsOn n := by
  cases body with
  | absent | native => trivial
  | print | method => exact h.elim

namespace Store

variable {s t : Store} {f : FunctionId} {args : List Value}

/-! ## Tables -/

/-- In the tables of frames and types each function goes under its own name and arity, in which the
receiver of a method counts. -/
structure Indexed (s : Store) : Prop where
  functions : ∀ g k f, (s.frame g).functions.find? k = some f →
    k = ((s.function f).name, (s.function f).params.length)
  methods : ∀ t k f, (s.membersOf t).methods.find? k = some f →
    k = ((s.function f).name, (s.function f).params.length)

theorem WellFormed.indexed (h : s.WellFormed) : s.Indexed where
  functions g k f hf := (h.functions g k f hf).2
  methods t k f hf := (h.methods t k f hf).2

theorem WellFormed.arity_of_lookupFunction (h : s.WellFormed) {g : FrameId} {name : String}
    {n : Nat}
    (hf : s.lookupFunction g name n = .ok f) : (s.function f).arity = n :=
  (congrArg Prod.snd (h.findFunction? (lookupFunction_eq_ok.mp hf)).2).symm

theorem WellFormed.arity_of_findMethod (h : s.WellFormed) {type : Ty} {name : String} {n : Nat}
    (hf : s.findMethod? type name n = some f) : (s.function f).arity = n + 1 :=
  (congrArg Prod.snd (h.methods type (name, n + 1) f hf).2).symm

/-! ## Functions -/

/-- Functions have as many parameters as their bodies count on, and the built-in ones are what they
have been. -/
structure Fitted (s : Store) : Prop where
  counts : ∀ f, (s.function f).body.CountsOn (s.function f).arity
  size : initial.functions.size ≤ s.functions.size
  builtIn : ∀ b : Primitive,
    (s.function b.id).arity = b.arity ∧ (s.function b.id).body = .native b.run

/-- The call has an argument for each parameter, and so for all that the body of the function
reads. -/
structure Serves (s : Store) (f : FunctionId) (args : List Value) : Prop where
  arity : (s.function f).params.length = args.length
  method : ∀ d c, (s.function f).body = .method d c → d.params.length = args.length
  print : (s.function f).body = .print → ∃ v, args = [v]
  builtIn : f.index < initial.functions.size → ∃ b : Primitive, ∃ h : b.arity = args.length,
    (s.function f).body = .native b.run ∧ b.run args = b.compute fun i => args.get (i.cast h)

theorem Fitted.serves (h : s.Fitted) (hf : (s.function f).arity = args.length) :
    s.Serves f args where
  arity := hf
  method d c hbody := by
    have hcounts := h.counts f
    rw [hbody] at hcounts
    exact hcounts.trans hf
  print hbody := by
    have hcounts := h.counts f
    rw [hbody] at hcounts
    exact List.length_eq_one_iff.mp (hf.symm.trans hcounts)
  builtIn hindex := by
    obtain ⟨b, rfl⟩ := Primitive.exists_id hindex
    obtain ⟨harity, hbody⟩ := h.builtIn b
    have hargs := harity.symm.trans hf
    exact ⟨b, hargs, hbody, b.run_eq_compute hargs⟩

theorem fitted_initial : initial.Fitted where
  counts f := by
    by_cases hf : f.index < initial.functions.size
    · obtain ⟨b, rfl⟩ := Primitive.exists_id hf
      rw [b.function_initial.2]
      trivial
    · rw [function_of_not_lt hf]
      trivial
  size := Nat.le_refl _
  builtIn b := b.function_initial

theorem Fitted.congr (h : s.Fitted) (hst : t.functions = s.functions) : t.Fitted := by
  have hfunction (f : FunctionId) : t.function f = s.function f := by rw [function, function, hst]
  refine ⟨fun f => ?_, hst ▸ h.size, fun b => ?_⟩
  · rw [hfunction]
    exact h.counts f
  · rw [hfunction]
    exact h.builtIn b

theorem Fitted.createFunction (h : s.Fitted) (fn : Function) (hfn : fn.body.CountsOn fn.arity) :
    (s.createFunction fn).2.Fitted := by
  refine ⟨fun f => ?_, ?_, fun b => ?_⟩
  · rw [function_createFunction]
    split
    · exact hfn
    · exact h.counts f
  · simp only [Store.createFunction, Array.size_push]
    exact Nat.le_succ_of_le h.size
  · have hold : b.id.index ≠ s.functions.size :=
      Nat.ne_of_lt (Nat.lt_of_lt_of_le b.index_lt h.size)
    rw [function_createFunction, if_neg hold]
    exact h.builtIn b

theorem Fitted.setReturns (h : s.Fitted) (f : FunctionId) (type : Ty) :
    (s.setReturns f type).Fitted := by
  have hfunction (g : FunctionId) :
      ((s.setReturns f type).function g).arity = (s.function g).arity ∧
      ((s.setReturns f type).function g).body = (s.function g).body := by
    rw [function_setReturns]
    split <;> exact ⟨rfl, rfl⟩
  refine ⟨fun g => ?_, ?_, fun b => ?_⟩
  · rw [(hfunction g).1, (hfunction g).2]
    exact h.counts g
  · simpa [Store.setReturns] using h.size
  · rw [(hfunction b.id).1, (hfunction b.id).2]
    exact h.builtIn b

theorem Fitted.defineFunction (h : s.Fitted) (g : FrameId) (fn : Function)
    (hfn : fn.body.CountsOn fn.arity) : (s.defineFunction g fn).2.Fitted :=
  (h.createFunction fn hfn).congr rfl

theorem Fitted.createRoot (h : s.Fitted) (parent : Option FrameId) (printing : Body)
    (hprinting : printing.CountsOn 1) : (s.createRoot parent printing).2.Fitted := by
  have hcreate : (s.createFrame parent).2.Fitted := h.congr rfl
  have hprinted : (s.printed parent printing).Fitted :=
    hcreate.defineFunction ⟨s.frames.size⟩ (printFunction printing) hprinting
  exact hprinted.congr rfl

theorem HostStep.fitted (h : s.HostStep t) (hs : s.Fitted) : t.Fitted := by
  cases h with
  | createFunction fn hfn => exact hs.createFunction fn (hfn.countsOn _)
  | register ht => exact hs.congr (by rw [register_eq ht])
  | unregister ht => exact hs.congr (by rw [unregister_eq ht])
  | defineMethod type name params returns body hbody =>
    let fn : Function := ⟨name, type :: params, some returns, body⟩
    exact (hs.createFunction fn (hbody.countsOn _)).congr rfl
  | _ => exact hs.congr rfl

theorem HostSteps.fitted (h : s.HostSteps t) (hs : s.Fitted) : t.Fitted := by
  induction h with
  | refl => exact hs
  | tail _ hstep ih => exact hstep.fitted ih

end Store

end BlockScript
