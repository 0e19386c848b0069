import BlockScript.Proofs.Execution.Watch
import BlockScript.Proofs.Soundness.Values

/-!
# Sound traces

What a trace should tell: names are found and stand for the right variables, and all values are of
the types that the analysis says. Each observation is judged by those before it.
-/

namespace BlockScript

/-- The variable `v` of a run stands for the variable `slot` of the analysis: the declaration of
`slot` has made it, or it is one of those numbered under `known`, which both share. -/
def Stands (known : Nat) (before : List Observation) (slot v : SlotId) : Prop :=
  (∃ value, .declared slot v value ∈ before) ∨ slot = v ∧ v.index < known

namespace Observation

/-- A name that is looked up is found, and a variable is the right one. -/
def Resolved (known : Nat) (before : List Observation) : Observation → Prop
  | resolved slot found => ∃ v, found = some v ∧ Stands known before slot v
  | called _ _ _ found => ∃ g, found = some g
  | evaluated .. | declared .. | assigned .. => True

/-- A value fits the type that the analysis has found for its expression or its variable. -/
def Typed (S : Store) : Observation → Prop
  | evaluated e value => value.Fits e.type
  | declared slot _ value => value.Fits (S.slot slot).type
  | assigned target value => value.Fits target.type
  | resolved .. | called .. => True

end Observation

/-- Every name in a trace is found and stands for the right variable. -/
def Resolves (known : Nat) : List Observation → Prop
  | [] => True
  | o :: before => o.Resolved known before ∧ Resolves known before

/-- A trace that tells what it should; of types only if they count. -/
structure SoundTrace (total : Prop) (known : Nat) (S : Store) (t : List Observation) : Prop where
  resolves : Resolves known t
  /-- No variable of the run stands for two variables of the analysis. -/
  unique : ∀ slot slot' v, Stands known t slot v → Stands known t slot' v → slot = slot'
  typed : total → ∀ o ∈ t, o.Typed S

variable {known : Nat} {t u : List Observation} {slot v : SlotId} {o : Observation}

theorem Stands.mono (h : Stands known t slot v) (htu : t <:+ u) : Stands known u slot v := by
  rcases h with ⟨value, hvalue⟩ | hknown
  · exact .inl ⟨value, htu.subset hvalue⟩
  · exact .inr hknown

theorem stands_cons : Stands known (o :: t) slot v ↔
    (∃ value, o = .declared slot v value) ∨ Stands known t slot v := by
  constructor
  · rintro (⟨value, hvalue⟩ | hknown)
    · rcases List.mem_cons.mp hvalue with ho | ht
      · exact .inl ⟨value, ho.symm⟩
      · exact .inr (.inl ⟨value, ht⟩)
    · exact .inr (.inr hknown)
  · rintro (⟨value, rfl⟩ | h)
    · exact .inl ⟨value, List.mem_cons_self⟩
    · exact h.mono (List.suffix_cons o t)

end BlockScript
