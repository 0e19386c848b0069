import BlockScript.Proofs.Pass.Evolution

/-!
# Safe attempts

What holds of the store of a pass at every point of it, what its parts give, and how they may fail.
-/

namespace BlockScript

/-- The failure is a diagnostic, and its cause is as `C` says. -/
def Failure.Diagnoses (C : Cause → Prop) : Failure → Prop
  | .diagnostic d => C d.cause
  | .misuse _ | .crash _ | .outOfFuel => False

theorem Failure.Diagnoses.locate {C : Cause → Prop} {e : Failure} (h : e.Diagnoses C)
    (p : Position) : (e.locate p).Diagnoses C := by
  cases e <;> exact h

theorem Failure.Diagnoses.exists {C : Cause → Prop} {e : Failure} (h : e.Diagnoses C) :
    ∃ d, e = .diagnostic d ∧ C d.cause := by
  cases e with
  | diagnostic d => exact ⟨d, rfl, h⟩
  | misuse | crash | outOfFuel => exact h.elim

namespace Pass

open Attempt Store

variable {ρ α β ε : Type} [Failing ε]

/-- On a sound state with a store as `J` says, the attempt leaves such a state and gives a result as
`P` says, or it fails as `E` says. -/
def Safe (J : Store → Prop) (E : Failure → Prop) (x : Attempt (Pass ρ) α) (P : α → Prop) : Prop :=
  ∀ a : Pass ρ, a.Sound → J a.store →
    Ends x a (fun r b => b.Sound ∧ J b.store ∧ P r) fun e _ => E e

variable {J : Store → Prop} {E : Failure → Prop} {x : Attempt (Pass ρ) α} {P Q : α → Prop}

theorem safe_pure {r : α} (h : P r) : Safe J E (pure r : Attempt (Pass ρ) α) P :=
  fun _ ha hJ => ⟨ha, hJ, h⟩

theorem safe_throw {e : Failure} (h : E e) : Safe J E (throw e : Attempt (Pass ρ) α) P :=
  fun _ _ _ => h

theorem safe_fail {cause : Cause} (h : E (.of cause)) :
    Safe J E (fail cause : Attempt (Pass ρ) α) P :=
  safe_throw h

theorem safe_ofExcept {y : Except ε α} (hok : ∀ r, y = .ok r → P r)
    (herror : ∀ e, y = .error e → E (Failing.failure e)) :
    Safe J E (ofExcept y : Attempt (Pass ρ) α) P := by
  cases y with
  | ok r => exact safe_pure (hok r rfl)
  | error e => exact safe_throw (herror e rfl)

theorem Safe.bind {f : α → Attempt (Pass ρ) β} {Q : β → Prop} (hx : Safe J E x P)
    (hf : ∀ r, P r → Safe J E (f r) Q) : Safe J E (x >>= f) Q :=
  fun a ha hJ => (hx a ha hJ).bind fun r b hr => hf r hr.2.2 b hr.1 hr.2.1

theorem Safe.locate (hE : ∀ e p, E e → E (e.locate p)) {p : Position} (h : Safe J E x P) :
    Safe J E (locate p x) P :=
  fun a ha hJ => Ends.locate (h a ha hJ) fun e _ he => hE e p he

theorem Safe.ite {c : Prop} [Decidable c] {y : Attempt (Pass ρ) α} (hx : Safe J E x P)
    (hy : Safe J E y P) : Safe J E (if c then x else y) P := by
  split
  · exact hx
  · exact hy

theorem safe_get : Safe J E (get : Attempt (Pass ρ) (Pass ρ)) fun a => a.Sound ∧ J a.store :=
  fun _ ha hJ => ⟨ha, hJ, ha, hJ⟩

theorem safe_ask {question : Store → FrameId → Except Cause α}
    (hok : ∀ s f r, J s → question s f = .ok r → P r)
    (herror : ∀ s f cause, J s → question s f = .error cause → E (.of cause)) :
    Safe J E (ask question : Attempt (Pass ρ) α) P :=
  safe_get.bind fun a ha =>
    safe_ofExcept (fun r => hok a.store a.scope r ha.2) fun cause =>
      herror a.store a.scope cause ha.2

theorem safe_note (event : Event) : Safe J E (note event : Attempt (Pass ρ) Unit) fun _ => True :=
  fun _ ha hJ => ⟨⟨ha.store, ha.scope⟩, hJ, trivial⟩

theorem safe_define {name : String} {type : Ty} {value : Option Value}
    (hJ : ∀ s f, J s → J (s.defineSlot f ⟨name, type, value⟩).2) :
    Safe J E (define name type value : Attempt (Pass ρ) SlotId) fun _ => True :=
  fun a ha h => ⟨(Evolves.define ha ⟨name, type, value⟩).sound, hJ a.store a.scope h, trivial⟩

theorem safe_assign {v : SlotId} {value : Value} (hJ : ∀ s, J s → J (s.assign v value)) :
    Safe J E (modify fun a => { a with store := a.store.assign v value } :
      Attempt (Pass ρ) PUnit) fun _ => True :=
  fun a ha h => ⟨ha.assign v value, hJ a.store h, trivial⟩

/-- What a pass keeps for itself does not matter. -/
theorem safe_own (own : ρ) :
    Safe J E (modify fun a => { a with own } : Attempt (Pass ρ) PUnit) fun _ => True :=
  fun _ ha h => ⟨⟨ha.store, ha.scope⟩, h, trivial⟩

theorem Safe.ensuring_own (h : Safe J E x P) (own : ρ) :
    Safe J E (ensuring x (modify fun a => { a with own })) P :=
  fun a ha hJ => ends_ensuring.mpr <| (h a ha hJ).imp
    (fun _ _ hr => ⟨⟨hr.1.store, hr.1.scope⟩, hr.2⟩) fun _ _ he => he

theorem safe_mapM {f : α → Attempt (Pass ρ) β} {xs : List α} {Q : β → Prop}
    (hf : ∀ r ∈ xs, Safe J E (f r) Q) : Safe J E (xs.mapM f) fun rs => ∀ r ∈ rs, Q r := by
  induction xs with
  | nil =>
    rw [List.mapM_nil]
    exact safe_pure nofun
  | cons r xs ih =>
    rw [List.forall_mem_cons] at hf
    rw [List.mapM_cons]
    exact hf.1.bind fun s hs => (ih hf.2).bind fun rs hrs =>
      safe_pure (List.forall_mem_cons.mpr ⟨hs, hrs⟩)

theorem safe_forM {f : α → Attempt (Pass ρ) PUnit} {xs : List α}
    (hf : ∀ r ∈ xs, Safe J E (f r) fun _ => True) : Safe J E (xs.forM f) fun _ => True := by
  induction xs with
  | nil => exact safe_pure trivial
  | cons r xs ih =>
    rw [List.forall_mem_cons] at hf
    exact hf.1.bind fun _ _ => ih hf.2

section

variable (hJ : ∀ s parent, J s → J (createFrame s parent).2)
include hJ

/-- What is done in a new frame that is left again. -/
theorem safe_backTo {y : Attempt (Pass ρ) α} {a b : Pass ρ} {parent : FrameId} (ha : a.Sound)
    (hb : b.Sound) (hstore : b.store = (a.store.createFrame (some parent)).2)
    (hscope : b.scope = ⟨a.store.frames.size⟩) (hkeeps : Keeps (Steps true) y)
    (hy : Safe J E y P) (hrun : x a = a.backTo (y b)) (h : J a.store) :
    Ends x a (fun r c => c.Sound ∧ J c.store ∧ P r) fun e _ => E e := by
  have hends := (hy b hb (hstore ▸ hJ a.store _ h)).and_keeps hkeeps
  refine (ends_backTo hrun).mpr (hends.imp ?_ fun _ _ he => he.1)
  rintro r c ⟨⟨-, hc, hr⟩, hsteps⟩
  exact ⟨(Evolves.leave ha hstore hscope (hsteps hb)).sound, hc, hr⟩

theorem safe_inScope (hkeeps : Keeps (Steps true) x) (hx : Safe J E x P) :
    Safe J E (inScope x) P :=
  fun _ ha =>
    safe_backTo hJ ha (ha.enterFrame ha.scope) rfl rfl hkeeps hx (inScope_eq ha hkeeps)

end

end Pass

end BlockScript
