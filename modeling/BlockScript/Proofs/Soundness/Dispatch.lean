import BlockScript.Proofs.Soundness.Resolution

/-!
# Which method a call runs

The analysis binds a call to the last method of its name and arity that stands before the call or
around it. A run defines all methods before it calls `main`, and so a call runs the last method of
the whole program. Without such a method, both mean the same function from outside of the program.
-/

namespace BlockScript

/-- The name in a call, by which the analysis has bound it to `f`, is found to mean a function `g`
with a body, as `R` says. -/
def Observation.LeadsTo (R : String → Nat → FunctionId → FunctionId → Body → Prop) :
    Observation → Prop
  | called name arity f found => ∃ g body, found = some (g, body) ∧ R name arity f g body
  | evaluated .. | resolved .. | declared .. | assigned .. => True

namespace TypedProgram

/-- The number of the first function that a run makes of a method of the program. -/
def first (p : TypedProgram) (fuel : Nat) (t : Store) (parent : Option FrameId) : Nat :=
  (p.initialised fuel t parent).machine.store.functions.size

/-- Where a call from a method leads that the analysis, which began on `s`, has bound to `f`, in a
run that began on `t`. -/
structure Calls (p : TypedProgram) (fuel : Nat) (s t : Store) (parent : Option FrameId)
    (name : String) (arity : Nat) (f g : FunctionId) (body : Body) : Prop where
  /-- The analysis knows the function from outside, or it is that of a method of the same key. -/
  bound : (Analysis.start s parent).context.functions name arity = some f ∨
    ∃ d ∈ p.methods, d.key = (name, arity) ∧ d.function = f
  /-- The last method of the key runs. -/
  latest : ∀ m ∈ TypedMethod.latest? p.methods (name, arity),
    Watch.Code.ofMethods p.methods (p.first fuel t parent) g = some m ∧
      body = .method m.erase ⟨t.frames.size⟩
  /-- Without a method of the key, the call keeps its binding. -/
  builtIn : TypedMethod.latest? p.methods (name, arity) = none → BuiltIn s t parent name arity f g

end TypedProgram

namespace Setting

variable {σ : Setting} {R : String → Nat → FunctionId → FunctionId → Body → Prop}
  {t : List Observation} {o : Observation}

theorem Dispatches.leadsTo (h : σ.Dispatches o)
    (hR : ∀ name arity f g body, σ.leads name arity f g →
      (∀ m, σ.code g = some m → body = .method m.erase σ.root) → R name arity f g body) :
    o.LeadsTo R := by
  cases o with
  | called name arity f found =>
    obtain ⟨g, body, hfound, hleads, hbody⟩ := h
    exact ⟨g, body, hfound, hR name arity f g body hleads hbody⟩
  | _ => trivial

end Setting

namespace Accepted

variable {μ : Strictness} {s final t : Store} {parent : Option FrameId} {p : TypedProgram}
  {fuel : Nat} {u : Watched}

/-- While fields are initialised, calls lead out of the program. -/
theorem Sees.leadsTo_fields (h : Sees μ s final t parent p fuel u) :
    ∀ o ∈ (p.initialised fuel t parent).trace, o.LeadsTo fun name arity f g _ =>
      BuiltIn s t parent name arity f g := by
  obtain ⟨later, htrace, hlater⟩ := h.fields
  intro o ho
  rw [htrace] at ho
  refine (hlater o ?_).leadsTo fun _ _ _ _ _ hleads _ => hleads
  exact (List.mem_append.mp ho).resolve_right List.not_mem_nil

/-- After that, calls lead to the last methods. -/
theorem Sees.leadsTo_calls (h : Sees μ s final t parent p fuel u) :
    ∃ later, u.trace = later ++ (p.initialised fuel t parent).trace ∧
      ∀ o ∈ later, o.LeadsTo (p.Calls fuel s t parent) := by
  obtain ⟨later, htrace, hlater⟩ := h.calls
  refine ⟨later, htrace, fun o ho => (hlater o ho).leadsTo ?_⟩
  intro name arity f g body hleads hbody
  refine ⟨?_, fun m hm => ?_, hleads.known⟩
  · have hbound := hleads.bound
    rwa [Context.functions_declareFields] at hbound
  · have hcode := hleads.latest m hm
    exact ⟨hcode, hbody m hcode⟩

end Accepted

namespace Program

variable {p : Program} {s t : Store} {parent : Option FrameId} {typed : TypedProgram}
  {a : Analysis}

/-- In every run of an accepted program, each call by name leads out of the program while fields are
initialised, and later to the last method of its name and arity if the program has one. So it runs
the method that the analysis has bound it to, unless a later one has the same name and arity. -/
theorem run_dispatches (hs : s.WellFormed) (hparent : ∀ f ∈ parent, s.Has f)
    (hcheck : p.check s parent = .ok typed a) (ht : t.WellFormed) (hst : s.Grows none t)
    (fuel : Nat) :
    typed.erase = p ∧ Watch.unwatched (typed.watch fuel t parent) = p.run fuel t parent ∧
      (∀ o ∈ (typed.initialised fuel t parent).trace, o.LeadsTo fun name arity f g _ =>
        BuiltIn s t parent name arity f g) ∧
      ∃ later, typed.trace fuel t parent = later ++ (typed.initialised fuel t parent).trace ∧
        ∀ o ∈ later, o.LeadsTo (typed.Calls fuel s t parent) := by
  have haccepted : Accepted .names s a.store t parent typed :=
    .of_check hs hparent hcheck ht hst nofun nofun nofun
  obtain ⟨w, hw, hsees⟩ := haccepted.sees fuel
  rw [← hw]
  exact ⟨(settled_of_check hs hparent hcheck).erase,
    (followsAt_of_check hs hparent hcheck ht hst fuel).unwatched, hsees.leadsTo_fields,
    hsees.leadsTo_calls⟩

/-- A method that is defined twice, and called before and after the second definition. -/
def redefining : String :=
  "LET r = range(0, 2); " ++
    "DEF f(): Integer DO RETURN 1; END " ++
    "DEF g(): Integer DO print(r); RETURN f(); END " ++
    "DEF f(): Integer DO RETURN 2; END " ++
    "DEF main(): Integer DO RETURN g() + f(); END"

theorem run_dispatches_redefining : ∃ p typed a, Program.parse redefining = .ok p ∧
    p.check .initial none = .ok typed a ∧ Store.initial.WellFormed ∧
    Store.initial.Grows none .initial ∧
    ∃ later, typed.trace 9 .initial none = later ++ (typed.initialised 9 .initial none).trace ∧
      ∀ o ∈ later, o.LeadsTo (typed.Calls 9 .initial .initial none) := by
  have haccepted : isAccepted redefining (fun _ _ => true) = true := by decide +kernel
  obtain ⟨p, typed, a, hparse, hcheck, -⟩ := exists_of_isAccepted haccepted
  have hinitial := Store.wellFormed_initial
  have hgrows := Store.Grows.refl none .initial
  obtain ⟨-, -, -, hcalls⟩ := run_dispatches hinitial (by simp) hcheck hinitial hgrows 9
  exact ⟨p, typed, a, hparse, hcheck, hinitial, hgrows, hcalls⟩

end Program

/-! ## Calls that leave their binding -/

/-- A call that runs a method runs the one that the analysis has bound it to. -/
def Observation.KeepsBinding (p : TypedProgram) : Observation → Prop
  | called _ _ f (some (_, .method m _)) => ∀ d ∈ p.methods, d.function = f → d.erase = m
  | _ => True

/-- The observed call runs a method at another place than the one it is bound to. -/
def Observation.leaves (p : TypedProgram) : Observation → Bool
  | called _ _ f (some (_, .method m _)) =>
    p.methods.any fun d => d.function = f && d.position ≠ m.position
  | _ => false

theorem Observation.not_keepsBinding {p : TypedProgram} {o : Observation}
    (h : o.leaves p = true) : ¬ o.KeepsBinding p := by
  unfold leaves at h
  split at h
  · obtain ⟨d, hd, hboth⟩ := List.any_eq_true.mp h
    rw [Bool.and_eq_true, decide_eq_true_eq, decide_eq_true_eq] at hboth
    exact fun hkeeps => hboth.2 (congrArg Method.position (hkeeps d hd hboth.1))
  · cases h

namespace Program

/-- A method is called that is defined again later. -/
def recalling : String :=
  "DEF f(): Integer DO RETURN 1; END DEF main(): Integer DO RETURN f(); END " ++
    "DEF f(): Integer DO RETURN 2; END"

/-- The call runs the later definition, which the analysis did not bind it to. -/
theorem run_leaves_recalling : ∃ p typed a, Program.parse recalling = .ok p ∧
    p.check .initial none = .ok typed a ∧
    ¬ ∀ o ∈ typed.trace 9 .initial none, o.KeepsBinding typed := by
  have hleaves : isAccepted recalling
      (fun typed _ => (typed.trace 9 .initial none).any fun o => o.leaves typed) = true := by
    decide +kernel
  obtain ⟨p, typed, a, hparse, hcheck, hany⟩ := exists_of_isAccepted hleaves
  obtain ⟨o, ho, hleaves⟩ := List.any_eq_true.mp hany
  exact ⟨p, typed, a, hparse, hcheck, fun hall => o.not_keepsBinding hleaves (hall o ho)⟩

end Program

end BlockScript
