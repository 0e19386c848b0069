import BlockScript.Proofs.Soundness.Resolution

/-!
# What a program returns

The analysis lets a program pass only if its `main` gives an integer. Three things may still bring
another value about: a method that ends without a RETURN, a variable that is declared without a
value, and a method that hides one with another signature. Apart from the last, the only other value
is nil.
-/

namespace BlockScript.Program

open Attempt

variable {p : Program} {t : Store} {typed : TypedProgram} {a : Analysis}

/-- An accepted program in which no method changes the signature of what it hides returns an integer
or nil, and an integer if all its declarations have a value and all its methods return on every
path. -/
theorem run_integer_or_nil (hcheck : p.check .initial none = .ok typed a)
    (hconsistent : typed.Consistent a.store) (ht : t.WellFormed)
    (hgrows : Store.initial.Grows none t) (fuel : Nat) :
    (∀ v m, p.run fuel t none = .ok v m → v = .nil ∨ ∃ n, v = .integer n) ∧
      (typed.IsTotal (fun _ => True) a.store →
        ∀ v m, p.run fuel t none = .ok v m → ∃ n, v = .integer n) := by
  refine ⟨fun v m hv => ?_, fun htotal v m hv => ?_⟩
  · have hends := ends_run (μ := .kinds) hcheck hconsistent nofun ht hgrows fuel
    exact (hends.of_ok hv trivial).fits_or_nil.symm.imp_right Value.Fits.integer
  · have hends := ends_run (μ := .values) hcheck hconsistent
      (fun _ => htotal.imp fun _ _ => nofun) ht hgrows fuel
    exact ((hends.of_ok hv trivial).fits trivial).integer

/-- Whether an accepted program returns a value as `P` says. -/
def returns (typed : TypedProgram) (P : Value → Bool) : Bool :=
  match typed.erase.run 9 .initial none with
  | .ok v _ => P v
  | .error _ _ => false

theorem exists_of_returns {P : Value → Bool} (hcheck : p.check .initial none = .ok typed a)
    (h : returns typed P = true) : ∃ v m, p.run 9 .initial none = .ok v m ∧ P v = true := by
  rw [returns, (settled_of_check Store.wellFormed_initial (by simp) hcheck).erase] at h
  split at h
  · rename_i v m hv
    exact ⟨v, m, hv, h⟩
  · cases h

/-- A method that hides another one of the same signature. -/
def counting : String :=
  "LET step: Integer = 1; " ++
    "DEF next(n: Integer): Integer DO RETURN n; END " ++
    "DEF next(n: Integer): Integer DO IF n > 3 DO RETURN n; ELSE RETURN next(n + step); END END " ++
    "DEF main() DO print(step); RETURN next(0); END"

theorem run_integer_or_nil_counting : ∃ p typed a, Program.parse counting = .ok p ∧
    p.check .initial none = .ok typed a ∧ typed.Consistent a.store ∧
    typed.IsTotal (fun _ => True) a.store ∧ Store.initial.WellFormed ∧
    Store.initial.Grows none .initial ∧
    ∃ v m, p.run 9 .initial none = .ok v m ∧ ∃ n, v = .integer n := by
  have haccepted : isAccepted counting (fun typed a =>
      decide (typed.Consistent a.store ∧ typed.IsTotal (fun _ => True) a.store ∧
        returns typed (fun _ => true) = true)) = true := by
    decide +kernel
  obtain ⟨p, typed, a, hparse, hcheck, hall⟩ := exists_of_isAccepted haccepted
  obtain ⟨hconsistent, htotal, hreturns⟩ := of_decide_eq_true hall
  obtain ⟨v, m, hv, -⟩ := exists_of_returns hcheck hreturns
  have hinitial := Store.wellFormed_initial
  have hgrows := Store.Grows.refl none .initial
  have hinteger := (run_integer_or_nil hcheck hconsistent hinitial hgrows 9).2 htotal v m hv
  exact ⟨p, typed, a, hparse, hcheck, hconsistent, htotal, hinitial, hgrows, v, m, hv, hinteger⟩

/-! ## Programs that return no integer -/

/-- The text is a program that is accepted and returns the value. -/
def Returns (text : String) (v : Value) : Prop :=
  ∃ p typed a m, Program.parse text = .ok p ∧ p.check .initial none = .ok typed a ∧
    p.run 9 .initial none = .ok v m

theorem returns_of_isAccepted {text : String} {v : Value}
    (h : isAccepted text (fun typed _ => returns typed fun w => decide (w = v)) = true) :
    Returns text v := by
  obtain ⟨p, typed, a, hparse, hcheck, hreturns⟩ := exists_of_isAccepted h
  obtain ⟨w, m, hw, heq⟩ := exists_of_returns hcheck hreturns
  rw [of_decide_eq_true heq] at hw
  exact ⟨p, typed, a, m, hparse, hcheck, hw⟩

/-- Each of the three ways leads to a value that is no integer. -/
theorem run_returns_other : Returns "DEF main(): Integer DO END" .nil ∧
    Returns "LET x: Integer; DEF main(): Integer DO RETURN x; END" .nil ∧
    Returns ("DEF f(): Integer DO RETURN 1; END DEF main() DO RETURN f(); END " ++
      "DEF f(): String DO RETURN \"x\"; END") (.string "x") :=
  ⟨returns_of_isAccepted (by decide +kernel), returns_of_isAccepted (by decide +kernel),
    returns_of_isAccepted (by decide +kernel)⟩

end BlockScript.Program
