import BlockScript.Proofs.Execution.Agreement
import BlockScript.Proofs.Syntax.RoundTrip
import BlockScript.Proofs.Typing.Agreement
import BlockScript.Toolchain

/-!
# Printing preserves meaning

Programs with one normal form cannot be told apart by analysis or execution, but for the places of
failures. What is read from the text of a program has the normal form of the program.
-/

namespace BlockScript

/-- The same variables with the same values, the same output and the same everything else, but that
the definitions of methods may differ in places and groups. -/
structure Pass.Alike {ρ : Type} (a b : Pass ρ) : Prop where
  scope : b.scope = a.scope
  log : b.log = a.log
  own : b.own = a.own
  frames : b.store.frames = a.store.frames
  slots : b.store.slots = a.store.slots
  functions : b.store.functions.map Function.normal = a.store.functions.map Function.normal
  members : b.store.members = a.store.members
  catalog : b.store.catalog = a.store.catalog
  customTypes : b.store.customTypes = a.store.customTypes

theorem Pass.alike_of_normal {ρ : Type} {a b : Pass ρ} (h : b.normal = a.normal) : a.Alike b where
  scope := congrArg (fun c => c.scope) h
  log := congrArg (fun c => c.log) h
  own := congrArg (fun c => c.own) h
  frames := congrArg (fun c => c.store.frames) h
  slots := congrArg (fun c => c.store.slots) h
  functions := congrArg (fun c => c.store.functions) h
  members := congrArg (fun c => c.store.members) h
  catalog := congrArg (fun c => c.store.catalog) h
  customTypes := congrArg (fun c => c.store.customTypes) h

namespace Program

variable {p q : Program}

/-- What happens to `p` happens to `q`, from whatever state. The analysis accepts both, with the
same findings on the same nodes, or rejects both for the same reason; a run gives the same value or
fails for the same reason. In success and failure the states are alike. -/
structure BehavesAs (q p : Program) : Prop where
  check : ∀ s parent, Attempt.Alike Eq
    (fun typed typed' => typed.erase = p ∧ typed'.erase = q ∧ typed'.normal = typed.normal)
    (p.check s parent) (q.check s parent)
  run : ∀ fuel s parent, Attempt.Alike Pass.Alike Eq (p.run fuel s parent) (q.run fuel s parent)

theorem behavesAs_of_normal (h : q.normal = p.normal) : q.BehavesAs p where
  check s parent := by
    have hp := Check.agree_program p (.start s parent) _ rfl
    have hq := Check.agree_program q (.start s parent) _ rfl
    rw [h] at hq
    refine (hp.join hq).imp ?_ ?_
    · rintro a b ⟨_, rfl, rfl⟩
      rfl
    · rintro typed typed' ⟨_, ⟨rfl, rfl⟩, rfl, hnormal⟩
      exact ⟨rfl, rfl, hnormal.symm⟩
  run fuel s parent := by
    have hp := Run.agrees_program fuel p (.start s parent) _ rfl
    have hq := Run.agrees_program fuel q (.start s parent) _ rfl
    rw [h] at hq
    refine (hp.join hq).imp ?_ ?_
    · rintro m m' ⟨_, rfl, hnormal⟩
      exact Pass.alike_of_normal hnormal.symm
    · rintro v v' ⟨_, rfl, rfl⟩
      rfl

/-- What is read from the text of a well-formed tree behaves as the tree. -/
theorem parse_print_behaves (hp : p.WellFormed) :
    ∃ text q, p.print = .ok text ∧ Program.parse text = .ok q ∧ q.BehavesAs p := by
  have hw : p.grouped.WellFormed := (wellFormed_grouped p).mpr hp
  have hc : p.grouped.Canonical := canonical_grouped hp
  obtain ⟨q, hparse, hq⟩ := parse_text hw hc
  have hqc : q.Canonical := (wellFormed_of_parse hparse).2
  exact ⟨_, q, print_eq hp, hparse, behavesAs_of_normal (normal_eq_of_unplaced hqc hq)⟩

theorem parse_print_behaves_signedProduct :
    signedProduct.WellFormed ∧ ∃ text q, signedProduct.print = .ok text ∧
      Program.parse text = .ok q ∧ q.BehavesAs signedProduct :=
  ⟨signedProduct_wellFormed, parse_print_behaves signedProduct_wellFormed⟩

end Program

end BlockScript
