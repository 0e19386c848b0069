import BlockScript.Proofs.Execution.Blaming
import BlockScript.Proofs.Execution.Definitions
import BlockScript.Proofs.Execution.Faults
import BlockScript.Proofs.Soundness.Programs
import BlockScript.Proofs.Typing.Blaming

/-!
# Faults have their place

Whatever the analysis finds wrong with a program but its entry point has a place, and so has
whatever goes wrong in a run of an accepted program: the types that its methods name are known,
`main` is one of its methods, and all that happens after the fields happens in statements.
-/

namespace BlockScript

open Attempt Pass

/-! ## Signatures -/

namespace Check

variable {a : Analysis}

theorem gives_signature (m : Method) : Gives (method m) a fun _ _ => a.store.Types m := by
  have hsignature : Finds (locate m.position (ask fun s _ => do
      return (← s.paramTypes m.params, ← s.namedType m.returnType))) a fun _ =>
      a.store.Types m := by
    refine Finds.locate (finds_ask fun r hr => ?_)
    obtain ⟨types, htypes, hrest⟩ := Store.bind_eq_ok.mp hr
    obtain ⟨returns, hreturns, -⟩ := Store.bind_eq_ok.mp hrest
    exact ⟨types, returns, htypes, hreturns⟩
  exact hsignature.bind fun _ hm => gives_const hm

theorem gives_signatures {ms : List Method} (ha : a.Sound) :
    Gives (ms.mapM method) a fun _ _ => ∀ m ∈ ms, a.store.Types m := by
  induction ms generalizing a with
  | nil =>
    rw [List.mapM_nil]
    exact gives_pure nofun
  | cons m ms ih =>
    rw [List.mapM_cons]
    refine ((gives_signature m).and_keeps (leaving_method m)).bind ?_
    rintro typed b ⟨hm, hleaves⟩
    have hb := hleaves ha
    refine (ih hb.sound).bind fun _ _ hms => gives_pure ?_
    refine List.forall_mem_cons.mpr ⟨hm, fun d hd => ?_⟩
    exact (hms d hd).congr hb.grows.toRefines.catalog.symm

/-- An accepted program names known types only in the heads of its methods. -/
theorem gives_program_signatures (ha : a.Sound) (p : Program) :
    Gives (program p) a fun _ _ => ∀ m ∈ p.methods, a.store.Types m := by
  have hfields : Keeps Leaving (p.fields.mapM field) := keeps_mapM fun d _ => leaving_field d
  refine (Gives.and_keeps (gives_const trivial) hfields).bind ?_
  rintro fields b ⟨-, hleaves⟩
  have hb := hleaves ha
  refine (gives_signatures hb.sound).bind fun _ _ hms => gives_const fun m hm => ?_
  exact (hms m hm).congr hb.grows.toRefines.catalog.symm

end Check

namespace Activity

variable {k : Nat} {m : Machine} {e : Failure}

/-- Statements fail in one of them. -/
theorem exists_statement {ss : List Stmt} (h : Fails e (Run.stmts (Run.invoke k) k ss) m) :
    ∃ b, nesting.Includes ⟨k, .statements ss, m⟩ b ∧ b.place?.isSome ∧ b.failure?.isSome := by
  induction ss generalizing m with
  | nil => cases h
  | cons s ss ih =>
    obtain hfirst | ⟨completion, n, hs, hrest⟩ := Fails.of_bind h
    · exact ⟨⟨k, .statement s, m⟩, .single .statement, rfl, Option.isSome_of_eq_some hfirst⟩
    · cases completion with
      | next =>
        obtain ⟨b, hb, hfails⟩ := ih hrest
        exact ⟨b, .head (.nextStatement hs) hb, hfails⟩
      | returned => cases hrest

/-- Fields fail in one of them. -/
theorem exists_field {ds : List Binding} (h : Fails e (ds.forM (Run.makeField k)) m) :
    ∃ b, nesting.Includes ⟨k, .fields ds, m⟩ b ∧ b.place?.isSome ∧ b.failure?.isSome := by
  cases ds with
  | nil => cases h
  | cons d ds => exact ⟨_, .refl, rfl, Option.isSome_of_eq_some h⟩

/-- A call of a method that can be entered fails in a statement. -/
theorem exists_called {f : FunctionId} {args : List Value} {d : Method} {closure : FrameId}
    (hm : m.Sound) (hf : (m.store.function f).body = .method d closure)
    (hdepth : ¬ Run.maxCalls ≤ m.depth) (h : Fails e (Run.invoke k f args) m)
    (he : e ≠ .outOfFuel) :
    ∃ b, nesting.Includes ⟨k, .call f args, m⟩ b ∧ b.place?.isSome ∧ b.failure?.isSome := by
  have hstems : nesting.Stems (· = .outOfFuel) ⟨k, .call f args, m⟩ (Run.invoke k f args) m :=
    stems_method rfl hm hf hdepth
  obtain hfuel | ⟨b, hb, hfails⟩ := hstems.of_fails h
  · exact absurd hfuel he
  · cases hb with
    | body =>
      obtain ⟨e', he'⟩ := Option.isSome_iff_exists.mp hfails
      obtain ⟨c, hc, hplaced⟩ := exists_statement he'
      exact ⟨c, .head (.body ‹_› ‹_› ‹_›) hc, hplaced⟩

end Activity

namespace Program

variable {p : Program} {typed : TypedProgram} {a : Analysis}

/-- The method `main` of an accepted program is one of its own. -/
theorem exists_main (hcheck : p.check .initial none = .ok typed a) :
    ∃ d, TypedMethod.latest? typed.methods ("main", 0) = some d := by
  have hs := Store.wellFormed_initial
  have hparent : ∀ f ∈ (none : Option FrameId), Store.initial.Has f := by simp
  obtain ⟨f, hf, -⟩ := (Program.settled_of_check hs hparent hcheck).checked.main
  rw [Context.functions_bindAll, Context.functions_declareFields,
    Analysis.functions_start hs hparent] at hf
  cases hlatest : TypedMethod.latest? typed.methods ("main", 0) with
  | some d => exact ⟨d, rfl⟩
  | none =>
    rw [hlatest] at hf
    cases hf

/-- The heads of the methods of an accepted program can be made out when it is run. -/
theorem types_of_check {s t : Store} {parent : Option FrameId} (hs : s.WellFormed)
    (hparent : ∀ f ∈ parent, s.Has f) (hcheck : p.check s parent = .ok typed a)
    (ht : t.catalog = s.catalog) : ∀ d ∈ p.methods, t.Types d := by
  have hstart := Analysis.sound_start hs hparent
  have htypes := (Check.gives_program_signatures hstart p).of_ok hcheck
  refine fun d hd => (htypes d hd).congr (ht.trans ?_)
  exact (Store.grows_createRoot s parent .absent).catalog.symm

/-- After the fields, a run of an accepted program comes to its method `main`. -/
theorem exists_main_of_defines (hcheck : p.check .initial none = .ok typed a) {n o : Machine}
    (h : Run.Defines n p.methods o) : ∃ f d closure,
      o.store.lookupFunction o.scope "main" 0 = .ok f ∧
      (o.store.function f).body = .method d closure := by
  obtain ⟨d, hd⟩ := exists_main hcheck
  have hsettled := Program.settled_of_check Store.wellFormed_initial (by simp) hcheck
  have herase : typed.methods.map TypedMethod.erase = p.methods :=
    congrArg Program.methods hsettled.erase
  have hlatest := Context.defineAll_latest n.context typed.methods n.store.functions.size "main" 0
  rw [hd, herase, ← h.context] at hlatest
  obtain ⟨f, hf, hcode⟩ := hlatest
  obtain ⟨i, rfl, hi⟩ := Watch.Code.ofMethods_eq_some.mp hcode
  have hmethod : p.methods[i]? = some d.erase := by
    rw [← herase, List.getElem?_map, hi]
    rfl
  exact ⟨_, _, _, Store.lookupFunction_eq_ok.mpr hf, (h.function i _ hmethod).body⟩

/-- A run of an accepted program fails in a field or in a statement. -/
theorem exists_placed_of_check (hcheck : p.check .initial none = .ok typed a) {k : Nat}
    {e : Failure} (h : Fails e (Run.program k p) (.start .initial none)) (he : e ≠ .outOfFuel) :
    ∃ b, Activity.nesting.Includes ⟨k, .program p, .start .initial none⟩ b ∧ b.place?.isSome ∧
      b.failure?.isSome := by
  have hstart : (Machine.start .initial none).Sound :=
    Machine.sound_start Store.wellFormed_initial (by simp)
  obtain hfields | ⟨_, n, hfields, h⟩ := Fails.of_bind h
  · obtain ⟨b, hb, hplaced⟩ := Activity.exists_field hfields
    exact ⟨b, .head .fields hb, hplaced⟩
  have hn := (Run.keeps_fields k p.fields _).of_ok hfields hstart
  obtain hmethods | ⟨_, o, hmethods, h⟩ := Fails.of_bind h
  · -- The run has the types that the analysis had, so no head of a method fails.
    obtain ⟨o, ho⟩ := failure?_eq_some.mp hmethods
    have hcatalog : n.store.catalog = Store.initial.catalog :=
      hn.grows.catalog.trans (Store.grows_createRoot .initial none .print).catalog
    have htypes := types_of_check Store.wellFormed_initial (by simp) hcheck hcatalog
    cases ho.symm.trans (Run.defineMethods_eq htypes)
  have hdefines := (Run.gives_defineMethods hn.sound p.methods).of_ok hmethods
  have ho := hdefines.extension
  obtain ⟨f, d, closure, hmain, hbody⟩ := exists_main_of_defines hcheck hdefines
  obtain hask | ⟨g, q, hask, h⟩ := Fails.of_bind h
  · obtain ⟨q, hq⟩ := failure?_eq_some.mp hask
    cases hq.symm.trans (ask_of_ok hmain)
  · cases hask.symm.trans (ask_of_ok hmain)
    obtain hnote | ⟨_, u, hnote, h⟩ := Fails.of_bind h
    · cases hnote
    · cases hnote
      have hu : Sound { o with log := .entryPointInvoked :: o.log } :=
        ⟨ho.sound.store, ho.sound.scope⟩
      -- No method is active before `main`, whose call therefore comes to its body.
      have hdepth : ¬ Run.maxCalls ≤ o.depth := by
        rw [Pass.depth, ho.own, hn.own]
        decide
      obtain ⟨b, hb, hplaced⟩ := Activity.exists_called hu hbody hdepth h he
      exact ⟨b, .head (.main hfields hmethods hmain) hb, hplaced⟩

/-- A run of a well-formed program fails for want of fuel, on a decimal that is too large, or with a
diagnostic. -/
theorem failure_of_run (hp : p.WellFormed) {fuel : Nat} {e : Failure} {m : Machine}
    (h : p.run fuel .initial none = .error e m) :
    e = .outOfFuel ∨ e = .crash .decimalOverflow ∨ ∃ d, e = .diagnostic d := by
  have hresult : result (p.run fuel .initial none) = .error e := by
    rw [h]
    rfl
  obtain hfuel | hcrash | hd := isFault_of_run vocabulary_isLine (uses_of_wellFormed hp) hresult
  · exact .inl hfuel
  · exact .inr (.inl hcrash)
  · obtain ⟨d, hd, -⟩ := hd.exists
    exact .inr (.inr ⟨d, hd⟩)

/-- The analysis fails with diagnostics, and all but those about the entry point have the place of
the innermost node that the analysis is at. In a run of an accepted program all diagnostics have the
place of the innermost statement that is executed, or of the field that is made. Whatever is around
hands them on as they are. Other failures are those of nodes that no text has, want of fuel, and
the crash on a decimal that is too large, which has no place. -/
theorem blames_innermost {s : Store} {parent : Option FrameId} (hs : s.WellFormed)
    (hparent : ∀ f ∈ parent, s.Has f) (p : Program) :
    (∀ e a, p.check s parent = .error e a →
      (∃ d, e = .diagnostic d ∧ (d.cause.family ≠ .missingEntryPoint →
        Visit.nesting.Blames ⟨.program p, .start s parent⟩ d)) ∨
      ∃ u, e = .misuse u ∧ ¬ p.WellFormed) ∧
    ∀ typed a, p.check .initial none = .ok typed a →
      ∀ fuel e m, p.run fuel .initial none = .error e m →
        (∃ d, e = .diagnostic d ∧
          Activity.nesting.Blames ⟨fuel, .program p, .start .initial none⟩ d) ∨
        e = .outOfFuel ∨ (∃ u, e = .misuse u ∧ ¬ p.WellFormed) ∨
        ∃ c, e = .crash c ∧ (p.WellFormed → c = .decimalOverflow) := by
  refine ⟨fun e a hrun => ?_, fun typed a hcheck fuel e m hrun => ?_⟩
  · let v : Visit := ⟨.program p, .start s parent⟩
    have hv : v.state.Sound := Analysis.sound_start hs hparent
    have hfails : v.failure? = some e := failure?_eq_some.mpr ⟨a, hrun⟩
    refine (Visit.diagnostic_or_misuse hv hfails).imp_left ?_
    rintro ⟨d, rfl⟩
    refine ⟨d, rfl, fun hfamily => ?_⟩
    obtain ⟨w, hw, hplace, hfail⟩ := Visit.exists_placed hv hfails hfamily
    exact Visit.lawful_nesting.blames hv hfails hw hplace hfail
  · let b : Activity := ⟨fuel, .program p, .start .initial none⟩
    have hb : b.machine.Sound := Machine.sound_start Store.wellFormed_initial (by simp)
    have hfails : b.failure? = some e := failure?_eq_some.mpr ⟨m, hrun⟩
    cases e with
    | diagnostic d =>
      obtain ⟨c, hc, hplace, hfail⟩ := exists_placed_of_check hcheck hfails nofun
      exact .inl ⟨d, rfl, Activity.lawful_nesting.blames hb hfails hc hplace hfail⟩
    | misuse u =>
      refine .inr (.inr (.inl ⟨u, rfl, fun hp => ?_⟩))
      obtain hfuel | hcrash | ⟨d, hd⟩ := failure_of_run hp hrun
      · cases hfuel
      · cases hcrash
      · cases hd
    | crash c =>
      refine .inr (.inr (.inr ⟨c, rfl, fun hp => ?_⟩))
      obtain hfuel | hcrash | ⟨d, hd⟩ := failure_of_run hp hrun
      · cases hfuel
      · exact Failure.crash.inj hcrash
      · cases hd
    | outOfFuel => exact .inr (.inl rfl)

/-- Whether the analysis of a program on its own fails with this diagnostic. -/
def isRejectedWith (p : Program) (d : Diagnostic) : Bool :=
  match result (p.check .initial none) with
  | .error e => e = .diagnostic d
  | .ok _ => false

theorem exists_of_result {σ α : Type} {r : EStateM.Result Failure σ α} {e : Failure}
    (h : result r = .error e) : ∃ t, r = .error e t := by
  cases r with
  | ok x t => cases h
  | error e' t =>
    cases h
    exact ⟨t, rfl⟩

theorem exists_of_result_isOk {σ α : Type} {r : EStateM.Result Failure σ α}
    (h : (result r).isOk = true) : ∃ x t, r = .ok x t := by
  cases r with
  | ok x t => exact ⟨x, t, rfl⟩
  | error e t => cases h

theorem exists_of_isRejectedWith {p : Program} {d : Diagnostic} (h : p.isRejectedWith d = true) :
    ∃ a, p.check .initial none = .error (.diagnostic d) a := by
  unfold isRejectedWith at h
  split at h
  · rename_i e he
    rw [of_decide_eq_true h] at he
    exact exists_of_result he
  · cases h

/-- The argument of the inner call is of the wrong type. -/
def misfitting : String :=
  "DEF f(n: Integer): Integer DO RETURN n; END " ++
    "DEF main() DO IF TRUE DO f(f(TRUE)); END RETURN 0; END"

/-- A call from inside a loop divides by zero inside another loop. -/
def vanishing : String :=
  "DEF f(n: Integer): Integer DO WHILE TRUE DO RETURN 1 / n; END RETURN 0; END " ++
    "DEF main() DO FOR i IN range(0, 2) DO print(f(1 - i)); END RETURN 0; END"

theorem blames_innermost_nested :
    (Store.initial.WellFormed ∧ ∀ f ∈ (none : Option FrameId), Store.initial.Has f) ∧
    (∃ p d a, Program.parse misfitting = .ok p ∧
      p.check .initial none = .error (.diagnostic d) a ∧ d.position = some ⟨1, 74⟩ ∧
      Visit.nesting.Blames ⟨.program p, .start .initial none⟩ d) ∧
    ∃ p typed a d m, Program.parse vanishing = .ok p ∧ p.check .initial none = .ok typed a ∧
      p.run 4 .initial none = .error (.diagnostic d) m ∧ d.position = some ⟨1, 45⟩ ∧
      Activity.nesting.Blames ⟨4, .program p, .start .initial none⟩ d := by
  have hs := Store.wellFormed_initial
  have hparent : ∀ f ∈ (none : Option FrameId), Store.initial.Has f := by simp
  have hmisfits : (Program.parse misfitting).toOption.any
      (·.isRejectedWith ⟨.notAssignable "Integer" "Boolean", some ⟨1, 74⟩⟩) = true := by
    decide +kernel
  have hvanishes : (Program.parse vanishing).toOption.any (fun p =>
      (result (p.check .initial none)).isOk &&
        p.failsWith 4 (.diagnostic ⟨.divisionByZero, some ⟨1, 45⟩⟩)) = true := by
    decide +kernel
  obtain ⟨p, hp, hrejected⟩ := exists_of_any hmisfits
  obtain ⟨q, hq, hvanishes⟩ := exists_of_any hvanishes
  obtain ⟨haccepted, hfails⟩ := Bool.and_eq_true_iff.mp hvanishes
  obtain ⟨a, hcheck⟩ := exists_of_isRejectedWith hrejected
  obtain ⟨typed, b, hcheck'⟩ := exists_of_result_isOk haccepted
  obtain ⟨m, hrun⟩ := exists_of_result (result_of_failsWith hfails)
  refine ⟨⟨hs, hparent⟩, ⟨p, _, a, hp, hcheck, rfl, ?_⟩,
    q, typed, b, _, m, hq, hcheck', hrun, rfl, ?_⟩
  · obtain ⟨d, hd, hblames⟩ | ⟨u, hu, -⟩ := (blames_innermost hs hparent p).1 _ a hcheck
    · cases hd
      exact hblames (by decide)
    · cases hu
  · obtain ⟨d, hd, hblames⟩ | hfuel | ⟨u, hu, -⟩ | ⟨c, hc, -⟩ :=
      (blames_innermost hs hparent q).2 typed b hcheck' 4 _ m hrun
    · cases hd
      exact hblames
    · cases hfuel
    · cases hu
    · cases hc

/-- A line is printed, and then a number is squared and made positive till it is too large. -/
def overflowing : String :=
  "DEF main(): Integer DO print(1); LET x = 10.0; " ++
    "FOR i IN range(0, 20) DO x = (x * x).abs(); END RETURN 7; END"

theorem crashes_overflowing : ∃ p typed a m, Program.parse overflowing = .ok p ∧
    p.check .initial none = .ok typed a ∧
    p.run 1 .initial none = .error (.crash .decimalOverflow) m := by
  have hcrashes : (Program.parse overflowing).toOption.any (fun p =>
      (result (p.check .initial none)).isOk && p.failsWith 1 (.crash .decimalOverflow)) = true := by
    decide +kernel
  obtain ⟨p, hp, hcrashes⟩ := exists_of_any hcrashes
  obtain ⟨haccepted, hfails⟩ := Bool.and_eq_true_iff.mp hcrashes
  obtain ⟨typed, a, hcheck⟩ := exists_of_result_isOk haccepted
  obtain ⟨m, hrun⟩ := exists_of_result (result_of_failsWith hfails)
  exact ⟨p, typed, a, m, hp, hcheck, hrun⟩

/-- An accepted program that fails without a place. -/
theorem not_blames_overflowing : ∃ p typed a e m, Program.parse overflowing = .ok p ∧
    p.check .initial none = .ok typed a ∧ p.run 1 .initial none = .error e m ∧
    e = .crash .decimalOverflow ∧ ∀ d, e ≠ .diagnostic d := by
  obtain ⟨p, typed, a, m, hp, hcheck, hrun⟩ := crashes_overflowing
  exact ⟨p, typed, a, _, m, hp, hcheck, hrun, rfl, nofun⟩

end Program

end BlockScript
