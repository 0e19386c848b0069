import BlockScript.Pass
import Mathlib.Tactic.Common

/-!
# Agreement of attempts

Two attempts agree if from related states both give related results or both fail for the same
reason, and end in related states. The places of failures are left out of account.
-/

namespace BlockScript

/-- A failure without its place. -/
def Failure.bare : Failure → Failure
  | .diagnostic d => .diagnostic ⟨d.cause, none⟩
  | e => e

@[simp] theorem Failure.bare_locate (e : Failure) (p : Position) : (e.locate p).bare = e.bare := by
  cases e <;> rfl

namespace Attempt

variable {σ τ α β γ δ ε : Type} [Failing ε] {R : σ → τ → Prop} {Q : α → β → Prop}

/-- Both end with related results, or both fail for the same reason; the states are related. -/
def Alike (R : σ → τ → Prop) (Q : α → β → Prop) :
    EStateM.Result Failure σ α → EStateM.Result Failure τ β → Prop
  | .ok a s, .ok b t => Q a b ∧ R s t
  | .error e s, .error f t => e.bare = f.bare ∧ R s t
  | _, _ => False

/-- The attempts end alike from related states. -/
def Agree (R : σ → τ → Prop) (Q : α → β → Prop) (x : Attempt σ α) (y : Attempt τ β) : Prop :=
  ∀ s t, R s t → Alike R Q (x s) (y t)

theorem Alike.imp {R' : σ → τ → Prop} {Q' : α → β → Prop} {r : EStateM.Result Failure σ α}
    {u : EStateM.Result Failure τ β} (h : Alike R Q r u) (hR : ∀ s t, R s t → R' s t)
    (hQ : ∀ a b, Q a b → Q' a b) : Alike R' Q' r u := by
  cases r <;> cases u
  · exact ⟨hQ _ _ h.1, hR _ _ h.2⟩
  · exact h
  · exact h
  · exact ⟨h.1, hR _ _ h.2⟩

/-- What is alike to the same is alike. -/
theorem Alike.join {σ' α' : Type} {R' : σ' → τ → Prop} {Q' : α' → β → Prop}
    {r : EStateM.Result Failure σ α} {r' : EStateM.Result Failure σ' α'}
    {u : EStateM.Result Failure τ β} (h : Alike R Q r u) (h' : Alike R' Q' r' u) :
    Alike (fun s s' => ∃ t, R s t ∧ R' s' t) (fun a a' => ∃ b, Q a b ∧ Q' a' b) r r' := by
  cases u with
  | ok b t =>
    cases r <;> cases r' <;> first | exact h.elim | exact h'.elim | skip
    exact ⟨⟨b, h.1, h'.1⟩, t, h.2, h'.2⟩
  | error e t =>
    cases r <;> cases r' <;> first | exact h.elim | exact h'.elim | skip
    exact ⟨h.1.trans h'.1.symm, t, h.2, h'.2⟩

section

variable {x : Attempt σ α} {y : Attempt τ β}

theorem agree_refl (x : Attempt σ α) : Agree Eq Eq x x := by
  rintro s _ rfl
  cases x s <;> exact ⟨rfl, rfl⟩

theorem agree_pure {a : α} {b : β} (h : Q a b) : Agree R Q (pure a) (pure b) :=
  fun _ _ hst => ⟨h, hst⟩

theorem agree_throw (e : Failure) : Agree R Q (throw e) (throw e) := fun _ _ hst => ⟨rfl, hst⟩

theorem agree_fail (cause : Cause) : Agree R Q (fail cause) (fail cause) := agree_throw _

theorem agree_ofExcept (r : Except ε α) : Agree R Eq (ofExcept r) (ofExcept r) := by
  cases r with
  | ok a => exact agree_pure rfl
  | error e => exact agree_throw _

theorem agree_get : Agree R R get get := fun _ _ hst => ⟨hst, hst⟩

theorem agree_modify {f : σ → σ} {g : τ → τ} (h : ∀ s t, R s t → R (f s) (g t)) :
    Agree R Eq (modify f : Attempt σ PUnit) (modify g : Attempt τ PUnit) :=
  fun s t hst => ⟨rfl, h s t hst⟩

theorem agree_modifyGet {f : σ → α × σ} {g : τ → β × τ}
    (h : ∀ s t, R s t → Q (f s).1 (g t).1 ∧ R (f s).2 (g t).2) :
    Agree R Q (modifyGet f : Attempt σ α) (modifyGet g : Attempt τ β) := fun s t hst => h s t hst

theorem Agree.bind {f : α → Attempt σ γ} {g : β → Attempt τ δ} {Q' : γ → δ → Prop}
    (h : Agree R Q x y) (hf : ∀ a b, Q a b → Agree R Q' (f a) (g b)) :
    Agree R Q' (x >>= f) (y >>= g) := by
  intro s t hst
  have h := h s t hst
  change Alike R Q' (EStateM.bind x f s) (EStateM.bind y g t)
  unfold EStateM.bind
  cases hx : x s <;> cases hy : y t <;> rw [hx, hy] at h
  · exact hf _ _ h.1 _ _ h.2
  · exact h.elim
  · exact h.elim
  · exact h

theorem Agree.bind_eq {y : Attempt τ α} {f : α → Attempt σ γ} {g : α → Attempt τ δ}
    {Q' : γ → δ → Prop} (h : Agree R Eq x y) (hf : ∀ a, Agree R Q' (f a) (g a)) :
    Agree R Q' (x >>= f) (y >>= g) :=
  h.bind fun a _ hab => hab ▸ hf a

theorem Agree.locate_right {p : Position} (h : Agree R Q x y) : Agree R Q x (locate p y) := by
  intro s t hst
  have h := h s t hst
  unfold Attempt.locate
  cases hx : x s <;> cases hy : y t <;> rw [hx, hy] at h
  · exact h
  · exact h.elim
  · exact h.elim
  · exact ⟨by simpa using h.1, h.2⟩

theorem Agree.flip (h : Agree R Q x y) : Agree (flip R) (flip Q) y x := by
  intro t s hst
  have h := h s t hst
  cases hx : x s <;> cases hy : y t <;> rw [hx, hy] at h
  · exact h
  · exact h.elim
  · exact h.elim
  · exact ⟨h.1.symm, h.2⟩

theorem Agree.locate {p q : Position} (h : Agree R Q x y) :
    Agree R Q (locate p x) (locate q y) :=
  h.locate_right.flip.locate_right.flip

theorem Agree.ensuring {after : Attempt σ Unit} {after' : Attempt τ Unit} (h : Agree R Q x y)
    (hafter : Agree R Eq after after') : Agree R Q (ensuring x after) (ensuring y after') := by
  intro s t hst
  have h := h s t hst
  unfold Attempt.ensuring
  cases hx : x s with
  | ok a u =>
    cases hy : y t <;> rw [hx, hy] at h
    · exact (hafter.bind_eq fun _ => agree_pure h.1) _ _ h.2
    · exact h.elim
  | error e u =>
    cases hy : y t with
    | ok b v =>
      rw [hx, hy] at h
      exact h.elim
    | error f v =>
      rw [hx, hy] at h
      have hfail : Agree R Q (throw e) (throw f) := fun _ _ hst => ⟨h.1, hst⟩
      exact (hafter.bind_eq fun _ => hfail) _ _ h.2

/-- What the second attempt gives may be changed. -/
theorem Agree.map {g : β → γ} {Q' : α → γ → Prop} (h : Agree R Q x y)
    (hg : ∀ a b, Q a b → Q' a (g b)) : Agree R Q' x (y >>= fun b => pure (g b)) := by
  rw [← bind_pure x]
  exact h.bind fun a b hab => agree_pure (hg a b hab)

theorem Agree.ite {c : Prop} [Decidable c] {x' : Attempt σ α} {y' : Attempt τ β}
    (h : Agree R Q x y) (h' : Agree R Q x' y') :
    Agree R Q (if c then x else x') (if c then y else y') := by
  split
  · exact h
  · exact h'

end

theorem agree_forM {f : γ → Attempt σ PUnit} {f' : δ → Attempt τ PUnit} {g : γ → δ} {xs : List γ}
    (h : ∀ a, Agree R Eq (f a) (f' (g a))) : Agree R Eq (xs.forM f) ((xs.map g).forM f') := by
  induction xs with
  | nil => exact agree_pure rfl
  | cons a xs ih => exact (h a).bind fun _ _ _ => ih

/-- What is given for each of a list, and for each of another that is made from it. -/
theorem agree_mapM {f : γ → Attempt σ β} {g : γ → γ} {erase : β → γ} {normal : β → β} {xs : List γ}
    {R : σ → σ → Prop}
    (h : ∀ a, Agree R (fun b c => erase b = a ∧ c = normal b) (f a) (f (g a))) :
    Agree R (fun bs cs => bs.map erase = xs ∧ cs = bs.map normal) (xs.mapM f)
      ((xs.map g).mapM f) := by
  induction xs with
  | nil => exact agree_pure ⟨rfl, rfl⟩
  | cons a xs ih =>
    rw [List.map_cons, List.mapM_cons, List.mapM_cons]
    refine (h a).bind ?_
    rintro b _ ⟨rfl, rfl⟩
    refine ih.bind ?_
    rintro bs _ ⟨rfl, rfl⟩
    exact agree_pure ⟨rfl, rfl⟩

end Attempt

/-! ## Passes -/

namespace Pass

open Attempt

variable {ρ α β : Type} {R : Pass ρ → Pass ρ → Prop} {Q : α → β → Prop}

/-- Scopes are entered and left alike where related states stand inside the same frame. -/
theorem agree_inScope {x : Attempt (Pass ρ) α} {y : Attempt (Pass ρ) β}
    (henter : ∀ a b, R a b → R (a.enterFrame a.scope) (b.enterFrame b.scope))
    (hparent : ∀ a b, R a b → (b.store.frame b.scope).parent = (a.store.frame a.scope).parent)
    (hscope : ∀ a b f, R a b → R { a with scope := f } { b with scope := f })
    (h : Agree R Q x y) : Agree R Q (inScope x) (inScope y) := by
  refine (agree_modify henter).bind_eq fun _ => h.ensuring ?_
  refine agree_get.bind fun a b hab => ?_
  rw [hparent a b hab]
  split
  · exact agree_modify fun _ _ _ => hscope a b _ hab
  · exact agree_throw _

end Pass

end BlockScript
