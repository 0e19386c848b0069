import BlockScript.Proofs.Execution.Following
import BlockScript.Proofs.Soundness.Programs

/-!
# Names mean in a run what the analysis says

The analysis walks through each block once, in the order of the text. A run makes new frames for
every call, branch and round of a loop, and new variables where names are declared again. Still each
name is found, and under it the variable that the declaration has made which the analysis has bound
it to. A host's functions define nothing while a program runs (see `Body.native`).
-/

namespace BlockScript.Program

open Attempt

variable {p : Program} {s t : Store} {parent : Option FrameId} {typed : TypedProgram}
  {a : Analysis}

/-- Each declaration of an accepted program has a variable of its own, which is none that there was
before. -/
theorem slots_of_check (hs : s.WellFormed) (hparent : ∀ f ∈ parent, s.Has f)
    (hcheck : p.check s parent = .ok typed a) :
    typed.allSlots.Nodup ∧ ∀ v ∈ typed.allSlots, s.slots.size ≤ v.index := by
  have hslots := (settled_of_check hs hparent hcheck).slots
  rw [hslots]
  refine ⟨SlotId.nodup_between _ _, fun v hv => ?_⟩
  obtain ⟨i, hi, rfl⟩ := List.mem_map.mp hv
  exact (List.mem_range'_1.mp hi).1

/-- A watched run of an accepted program is a run of the program. -/
theorem followsAt_of_check (hs : s.WellFormed) (hparent : ∀ f ∈ parent, s.Has f)
    (hcheck : p.check s parent = .ok typed a) (ht : t.WellFormed) (hst : s.Grows none t)
    (fuel : Nat) : Watch.FollowsAt ⟨Machine.start t parent, []⟩ (Watch.program fuel typed)
      (Run.program fuel p) := by
  have hsettled := settled_of_check hs hparent hcheck
  have hsound := Machine.sound_start ht fun f hf => hst.has (hparent f hf)
  have hlength : ∀ m ∈ typed.methods, m.slots.length = m.params.length := fun m hm => by
    obtain ⟨_, _, -, hm⟩ := hsettled.checked.methods.split hm
    exact hm.length
  have hfollows : Watch.FollowsAt ⟨Machine.start t parent, []⟩ _ _ :=
    Watch.followsAt_program hsound fuel typed hlength
  rwa [hsettled.erase] at hfollows

/-- How a program ends that is accepted over the initial store and meets the conditions of `μ`. -/
theorem ends_run {μ : Strictness} (hcheck : p.check .initial none = .ok typed a)
    (hconsistent : typed.Consistent a.store)
    (htotal : μ.total → typed.IsTotal (fun e => μ.benign → e.ComparesKnown) a.store)
    (ht : t.WellFormed) (hgrows : Store.initial.Grows none t) (fuel : Nat) :
    Ends (Run.program fuel p) (Machine.start t none)
      (fun v _ => μ.strict → v.Meets μ.total .integer) fun e _ => μ.benign → e.IsBenign := by
  have hinitial := Store.wellFormed_initial
  have haccepted : Accepted μ .initial a.store t none typed :=
    .of_check hinitial (by simp) hcheck ht hgrows (fun _ => ⟨rfl, rfl⟩) (fun _ => hconsistent) htotal
  have hfollows := followsAt_of_check hinitial (by simp) hcheck ht hgrows fuel
  exact hfollows.ends ((haccepted.ends_program fuel).imp (fun _ _ hv => hv.2) fun _ _ he => he.2)

/-- In every run of an accepted program over the same parent, all names that are looked up are
found, and variables are those of the declarations that the analysis says. -/
theorem run_resolves (hs : s.WellFormed) (hparent : ∀ f ∈ parent, s.Has f)
    (hcheck : p.check s parent = .ok typed a) (ht : t.WellFormed) (hst : s.Grows none t)
    (fuel : Nat) :
    typed.erase = p ∧ typed.allSlots.Nodup ∧ (∀ v ∈ typed.allSlots, s.slots.size ≤ v.index) ∧
      Watch.unwatched (typed.watch fuel t parent) = p.run fuel t parent ∧
      Resolves s.slots.size (typed.trace fuel t parent) ∧
      ∀ slot slot' v, Stands s.slots.size (typed.trace fuel t parent) slot v →
        Stands s.slots.size (typed.trace fuel t parent) slot' v → slot = slot' := by
  have haccepted : Accepted .names s a.store t parent typed :=
    .of_check hs hparent hcheck ht hst nofun nofun nofun
  obtain ⟨hdistinct, hnew⟩ := slots_of_check hs hparent hcheck
  obtain ⟨w, hw, hsees⟩ := haccepted.sees fuel
  have htrace := hw ▸ hsees.trace
  exact ⟨(settled_of_check hs hparent hcheck).erase, hdistinct, hnew,
    (followsAt_of_check hs hparent hcheck ht hst fuel).unwatched, htrace.resolves, htrace.unique⟩

/-- Two fields and two parameters of one name, redeclared and hidden variables, and a loop. -/
def redeclaring : String :=
  "LET x = 1; LET x = x + 1; " ++
    "DEF f(n: Integer, n: Integer) DO LET n = n + x; LET n = n; RETURN n; END " ++
    "DEF main() DO FOR i IN range(0, 2) DO LET x = f(x, i); x = x + 1; END RETURN x; END"

theorem run_resolves_redeclaring : ∃ p typed a, Program.parse redeclaring = .ok p ∧
    p.check .initial none = .ok typed a ∧ Store.initial.WellFormed ∧
    Store.initial.Grows none .initial ∧ typed.erase = p ∧
    Resolves Store.initial.slots.size (typed.trace 9 .initial none) := by
  have haccepted : isAccepted redeclaring (fun _ _ => true) = true := by decide +kernel
  obtain ⟨p, typed, a, hparse, hcheck, -⟩ := exists_of_isAccepted haccepted
  have hinitial := Store.wellFormed_initial
  have hgrows := Store.Grows.refl none .initial
  obtain ⟨herase, -, -, -, hresolves, -⟩ :=
    run_resolves hinitial (by simp) hcheck hinitial hgrows 9
  exact ⟨p, typed, a, hparse, hcheck, hinitial, hgrows, herase, hresolves⟩

end BlockScript.Program
