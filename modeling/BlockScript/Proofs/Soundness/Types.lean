import BlockScript.Proofs.Soundness.Resolution

/-!
# Accepted programs keep to their types

A program that the analysis accepts on its own, and that meets a few conditions which the analysis
does not impose, never fails for a type or a name. All its values are of the types that the analysis
says, and `main` gives an integer.
-/

namespace BlockScript.Program

open Attempt

variable {p : Program} {t : Store} {typed : TypedProgram} {a : Analysis}

/-- A tame program that is accepted over the initial store does not go wrong: whatever happens in a
run of it, all values that expressions have or that are stored are of the types that the analysis
says, `main` gives an integer if it gives anything, and no failure is a matter of types or of
unknown names. -/
theorem run_typed (hcheck : p.check .initial none = .ok typed a) (htame : typed.Tame a.store)
    (ht : t.WellFormed) (hgrows : Store.initial.Grows none t) (fuel : Nat) :
    typed.erase = p ∧ Watch.unwatched (typed.watch fuel t none) = p.run fuel t none ∧
      (∀ o ∈ typed.trace fuel t none, o.Typed a.store) ∧
      (∀ v m, p.run fuel t none = .ok v m → ∃ n, v = .integer n) ∧
      ∀ e m, p.run fuel t none = .error e m → e.IsBenign := by
  have hinitial := Store.wellFormed_initial
  have htotal : Strictness.full.total →
      typed.IsTotal (fun e => Strictness.full.benign → e.ComparesKnown) a.store :=
    fun _ => htame.toIsTotal.imp fun _ he _ => he
  have haccepted : Accepted .full .initial a.store t none typed :=
    .of_check hinitial (by simp) hcheck ht hgrows (fun _ => ⟨rfl, rfl⟩) (fun _ => htame.consistent)
      htotal
  have hends := ends_run hcheck htame.consistent htotal ht hgrows fuel
  obtain ⟨w, hw, hsees⟩ := haccepted.sees fuel
  exact ⟨(settled_of_check hinitial (by simp) hcheck).erase,
    (followsAt_of_check hinitial (by simp) hcheck ht hgrows fuel).unwatched,
    hw ▸ hsees.trace.typed trivial, fun v m hv => ((hends.of_ok hv trivial).fits trivial).integer,
    fun e m he => hends.of_error he trivial⟩

/-- A field, a method that calls itself, a loop and a method without a result. -/
def summing : String :=
  "LET base = 2; " ++
    "DEF sum(n: Integer): Integer DO " ++
    "IF n <= 0 DO RETURN base; ELSE LET rest = sum(n - 1); RETURN rest + n; END END " ++
    "DEF show(c: Integer) DO FOR i IN range(0, c) DO print(\"n\" + sum(i)); END END " ++
    "DEF main() DO show(base); RETURN sum(3); END"

theorem run_typed_summing : ∃ p typed a, Program.parse summing = .ok p ∧
    p.check .initial none = .ok typed a ∧ typed.Tame a.store ∧ Store.initial.WellFormed ∧
    Store.initial.Grows none .initial ∧
    (∀ o ∈ typed.trace 9 .initial none, o.Typed a.store) ∧
    (∀ v m, p.run 9 .initial none = .ok v m → ∃ n, v = .integer n) ∧
    ∀ e m, p.run 9 .initial none = .error e m → e.IsBenign := by
  have haccepted : isAccepted summing (fun typed a => decide (typed.Tame a.store)) = true := by
    decide +kernel
  obtain ⟨p, typed, a, hparse, hcheck, htame⟩ := exists_of_isAccepted haccepted
  have htame' : typed.Tame a.store := of_decide_eq_true htame
  have hinitial := Store.wellFormed_initial
  have hgrows := Store.Grows.refl none .initial
  obtain ⟨-, -, htyped, hvalue, hfailure⟩ := run_typed hcheck htame' hinitial hgrows 9
  exact ⟨p, typed, a, hparse, hcheck, htame', hinitial, hgrows, htyped, hvalue, hfailure⟩

end BlockScript.Program
