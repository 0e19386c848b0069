import BlockScript.Proofs.Pass.Evolution

/-!
# Attempts in lockstep

Two attempts go in lockstep if from related states both give related results or both fail in the
same way, and end in related states.
-/

namespace BlockScript

theorem rel_self {α : Type} {R : α → α → Prop} {o : Option α} (h : ∀ a, o = some a → R a a) :
    Option.Rel R o o := by
  cases o with
  | none => exact .none
  | some a => exact .some (h a rfl)

namespace Attempt

variable {σ τ α β γ δ ε : Type} {R R' : σ → τ → Prop} {Q : α → β → Prop}

/-- Both end with related results or with the same failure, in related states. -/
inductive Paired (R : σ → τ → Prop) (Q : α → β → Prop) :
    EStateM.Result Failure σ α → EStateM.Result Failure τ β → Prop
  | ok {a : α} {b : β} {s : σ} {t : τ} (hab : Q a b) (hst : R s t) : Paired R Q (.ok a s) (.ok b t)
  | error {e : Failure} {s : σ} {t : τ} (hst : R s t) : Paired R Q (.error e s) (.error e t)

/-- Related results, or the same error. -/
inductive SameAnswers (Q : α → β → Prop) : Except ε α → Except ε β → Prop
  | ok {a : α} {b : β} (h : Q a b) : SameAnswers Q (.ok a) (.ok b)
  | error (e : ε) : SameAnswers Q (.error e) (.error e)

theorem SameAnswers.same {Q : α → α → Prop} {r : Except ε α} (h : ∀ a, r = .ok a → Q a a) :
    SameAnswers Q r r := by
  cases r with
  | ok a => exact .ok (h a rfl)
  | error e => exact .error e

theorem Paired.imp {Q' : α → β → Prop} {r : EStateM.Result Failure σ α}
    {u : EStateM.Result Failure τ β} (h : Paired R Q r u) (hR : ∀ s t, R s t → R' s t)
    (hQ : ∀ a b, Q a b → Q' a b) : Paired R' Q' r u := by
  cases h with
  | ok hab hst => exact .ok (hQ _ _ hab) (hR _ _ hst)
  | error hst => exact .error (hR _ _ hst)

/-- What ends in such a state, whether or not it fails, ends so when it is done twice. -/
theorem Ends.paired {P : σ → Prop} {x : Attempt σ α} {s : σ}
    (h : Ends x s (fun _ => P) fun _ => P) :
    Paired (fun t u => u = t ∧ P t) Eq (x s) (x s) := by
  unfold Ends at h
  generalize x s = r at h
  cases r with
  | ok a t => exact .ok rfl ⟨rfl, h⟩
  | error e t => exact .error ⟨rfl, h⟩

/-- The attempts end paired from related states. -/
def Lockstep (R : σ → τ → Prop) (Q : α → β → Prop) (x : Attempt σ α) (y : Attempt τ β) : Prop :=
  ∀ s t, R s t → Paired R Q (x s) (y t)

section

variable {x : Attempt σ α} {y : Attempt τ β}

theorem lockstep_pure {a : α} {b : β} (h : Q a b) : Lockstep R Q (pure a) (pure b) :=
  fun _ _ hst => .ok h hst

theorem lockstep_throw (e : Failure) : Lockstep R Q (throw e) (throw e) := fun _ _ hst => .error hst

theorem lockstep_fail (cause : Cause) : Lockstep R Q (fail cause) (fail cause) := lockstep_throw _

theorem lockstep_ofExcept [Failing ε] {r : Except ε α} {u : Except ε β} (h : SameAnswers Q r u) :
    Lockstep R Q (ofExcept r) (ofExcept u) := by
  cases h with
  | ok hab => exact lockstep_pure hab
  | error e => exact lockstep_throw _

theorem lockstep_get : Lockstep R R get get := fun _ _ hst => .ok hst hst

theorem lockstep_modify {f : σ → σ} {g : τ → τ} (h : ∀ s t, R s t → R (f s) (g t)) :
    Lockstep R Eq (modify f : Attempt σ PUnit) (modify g : Attempt τ PUnit) :=
  fun s t hst => .ok rfl (h s t hst)

theorem lockstep_modifyGet {f : σ → α × σ} {g : τ → β × τ}
    (h : ∀ s t, R s t → Q (f s).1 (g t).1 ∧ R (f s).2 (g t).2) :
    Lockstep R Q (modifyGet f : Attempt σ α) (modifyGet g : Attempt τ β) :=
  fun s t hst => .ok (h s t hst).1 (h s t hst).2

theorem Paired.bind {s : σ} {t : τ} {f : α → Attempt σ γ} {g : β → Attempt τ δ}
    {Q' : γ → δ → Prop} (h : Paired R Q (x s) (y t))
    (hf : ∀ a b u v, Q a b → R u v → Paired R' Q' (f a u) (g b v))
    (hfail : ∀ u v, R u v → R' u v) : Paired R' Q' ((x >>= f) s) ((y >>= g) t) := by
  change Paired R' Q' (EStateM.bind x f s) (EStateM.bind y g t)
  unfold EStateM.bind
  generalize x s = r, y t = u at h
  cases h with
  | ok hab huv => exact hf _ _ _ _ hab huv
  | error huv => exact .error (hfail _ _ huv)

theorem Lockstep.bind {f : α → Attempt σ γ} {g : β → Attempt τ δ} {Q' : γ → δ → Prop}
    (h : Lockstep R Q x y) (hf : ∀ a b, Q a b → Lockstep R Q' (f a) (g b)) :
    Lockstep R Q' (x >>= f) (y >>= g) :=
  fun s t hst => (h s t hst).bind (fun a b u v hab => hf a b hab u v) fun _ _ huv => huv

theorem Lockstep.locate {p : Position} (h : Lockstep R Q x y) :
    Lockstep R Q (locate p x) (locate p y) := by
  intro s t hst
  have h := h s t hst
  unfold Attempt.locate
  generalize x s = r, y t = u at h
  cases h with
  | ok hab huv => exact .ok hab huv
  | error huv => exact .error huv

theorem Lockstep.ite {c : Prop} [Decidable c] {x' : Attempt σ α} {y' : Attempt τ β}
    (h : Lockstep R Q x y) (h' : Lockstep R Q x' y') :
    Lockstep R Q (if c then x else x') (if c then y else y') := by
  split
  · exact h
  · exact h'

/-- What each of two attempts keeps by itself is kept besides. -/
theorem Lockstep.paired_keeps {S : σ → σ → Prop} {S' : τ → τ → Prop} {s : σ} {t : τ}
    (h : Lockstep R Q x y) (hx : Keeps S x) (hy : Keeps S' y) (hst : R s t) :
    Paired (fun u v => R u v ∧ S s u ∧ S' t v) Q (x s) (y t) := by
  have h := h s t hst
  have hx := hx s
  have hy := hy t
  unfold Ends at hx hy
  generalize x s = r, y t = u at h hx hy
  cases h with
  | ok hab huv => exact .ok hab ⟨huv, hx, hy⟩
  | error huv => exact .error ⟨huv, hx, hy⟩

end

theorem lockstep_forM {f : γ → Attempt σ PUnit} {g : γ → Attempt τ PUnit} {xs : List γ}
    (h : ∀ a, Lockstep R Eq (f a) (g a)) : Lockstep R Eq (xs.forM f) (xs.forM g) := by
  induction xs with
  | nil => exact lockstep_pure rfl
  | cons a xs ih => exact (h a).bind fun _ _ _ => ih

end Attempt

namespace Pass

open Attempt

variable {ρ α β : Type} {a b : Pass ρ} {R R' : Pass ρ → Pass ρ → Prop} {Q : α → β → Prop}

theorem paired_backTo {r : EStateM.Result Failure (Pass ρ) α}
    {u : EStateM.Result Failure (Pass ρ) β} (h : Paired R Q r u)
    (hR : ∀ c d, R c d → R' (a.leave c) (b.leave d)) :
    Paired R' Q (a.backTo r) (b.backTo u) := by
  cases h with
  | ok hvw hcd => exact .ok hvw (hR _ _ hcd)
  | error hcd => exact .error (hR _ _ hcd)

end Pass

end BlockScript
