import BlockScript.Attempt
import Mathlib.Order.Defs.Unbundled
import Mathlib.Tactic.Common

/-!
# Outcomes of attempts

What is said of an attempt is said of its result and its last state, and apart from that of its
failure and the state at the failure. An attempt keeps a relation if its last state is always
related to its first.
-/

namespace BlockScript.Attempt

variable {σ α β ε : Type} [Failing ε] {s : σ} {x : Attempt σ α} {Q : α → σ → Prop}
  {E : Failure → σ → Prop}

/-- The attempt gives a result as `Q` says or fails as `E` says. -/
def Ends (x : Attempt σ α) (s : σ) (Q : α → σ → Prop) (E : Failure → σ → Prop) : Prop :=
  match x s with
  | .ok a t => Q a t
  | .error e t => E e t

theorem Ends.imp {Q' : α → σ → Prop} {E' : Failure → σ → Prop}
    (h : Ends x s Q E) (hQ : ∀ a t, Q a t → Q' a t) (hE : ∀ e t, E e t → E' e t) :
    Ends x s Q' E' := by
  unfold Ends at h ⊢
  cases hx : x s with
  | ok a t => rw [hx] at h; exact hQ a t h
  | error e t => rw [hx] at h; exact hE e t h

theorem ends_bind {f : α → Attempt σ β} {Q : β → σ → Prop} :
    Ends (x >>= f) s Q E ↔ Ends x s (fun a t => Ends (f a) t Q E) E := by
  unfold Ends
  change (match EStateM.bind x f s with | .ok a t => Q a t | .error e t => E e t) ↔ _
  unfold EStateM.bind
  cases x s <;> rfl

/-- First `x`, then what follows, for each result of `x`. -/
theorem Ends.bind {f : α → Attempt σ β} {Q' : β → σ → Prop}
    (h : Ends x s Q E) (hf : ∀ a t, Q a t → Ends (f a) t Q' E) : Ends (x >>= f) s Q' E :=
  ends_bind.mpr (h.imp hf fun _ _ he => he)

theorem ends_eq_ok {a : α} {t : σ} (hx : x s = .ok a t) : Ends x s Q E ↔ Q a t := by
  unfold Ends
  rw [hx]

theorem bind_eq_ok {f : α → Attempt σ β} {b : β} {t : σ} :
    (x >>= f) s = .ok b t ↔ ∃ a u, x s = .ok a u ∧ f a u = .ok b t := by
  change EStateM.bind x f s = _ ↔ _
  unfold EStateM.bind
  cases x s <;> simp

theorem bind_of_ok {f : α → Attempt σ β} {a : α} {t : σ} (h : x s = .ok a t) :
    (x >>= f) s = f a t := by
  change EStateM.bind x f s = _
  unfold EStateM.bind
  rw [h]

theorem bind_of_error {f : α → Attempt σ β} {e : Failure} {t : σ} (h : x s = .error e t) :
    (x >>= f) s = .error e t := by
  change EStateM.bind x f s = _
  unfold EStateM.bind
  rw [h]

theorem ends_pure {a : α} : Ends (pure a) s Q E ↔ Q a s := Iff.rfl

theorem get_bind {f : σ → Attempt σ α} : (get >>= f) s = f s s := rfl

theorem ends_get {Q : σ → σ → Prop} : Ends get s Q E ↔ Q s s := Iff.rfl

theorem ends_modify {f : σ → σ} {Q : PUnit → σ → Prop} :
    Ends (modify f) s Q E ↔ Q ⟨⟩ (f s) := Iff.rfl

theorem ends_ofExcept {x : Except ε α} :
    Ends (ofExcept x) s Q E ↔ match x with
      | .ok a => Q a s
      | .error e => E (Failing.failure e) s := by
  cases x <;> rfl

theorem Ends.locate {p : Position} (h : Ends x s Q E)
    (hE : ∀ e t, E e t → E (e.locate p) t) : Ends (locate p x) s Q E := by
  unfold Ends Attempt.locate at *
  cases hx : x s with
  | ok a t => rw [hx] at h; exact h
  | error e t => rw [hx] at h; exact hE e t h

theorem ends_ensuring {after : Attempt σ Unit} : Ends (ensuring x after) s Q E ↔
    Ends x s (fun a t => Ends after t (fun _ u => Q a u) E)
      fun e t => Ends after t (fun _ u => E e u) E := by
  unfold Ends ensuring
  cases hx : x s with
  | ok a t => exact ends_bind
  | error e t => exact ends_bind

theorem ends_imp {P : Prop} :
    Ends x s (fun a t => P → Q a t) (fun e t => P → E e t) ↔ (P → Ends x s Q E) := by
  unfold Ends
  cases x s <;> rfl

theorem locate_eq_ok {p : Position} {a : α} {t : σ} : locate p x s = .ok a t ↔ x s = .ok a t := by
  unfold locate
  cases x s <;> simp

theorem ofExcept_eq_ok {x : Except ε α} {a : α} {t : σ} (h : ofExcept x s = .ok a t) :
    t = s ∧ x = .ok a := by
  cases x with
  | ok a =>
    cases h
    exact ⟨rfl, rfl⟩
  | error c => cases h

/-- What an attempt gives, if it gives anything. -/
theorem Ends.of_ok {a : α} {t : σ} (h : Ends x s Q E) (hx : x s = .ok a t) :
    Q a t := by
  unfold Ends at h
  rwa [hx] at h

theorem Ends.of_error {e : Failure} {t : σ} (h : Ends x s Q E)
    (hx : x s = .error e t) : E e t := by
  unfold Ends at h
  rwa [hx] at h

/-- What is said of the end may refer to the run itself. -/
theorem Ends.with_run (h : Ends x s Q E) :
    Ends x s (fun a t => Q a t ∧ x s = .ok a t) fun e t => E e t ∧ x s = .error e t := by
  unfold Ends at *
  cases hx : x s with
  | ok a t => rw [hx] at h; exact ⟨h, rfl⟩
  | error e t => rw [hx] at h; exact ⟨h, rfl⟩

/-! ## Results -/

/-- If the attempt gives a result, it is as `Q` says. -/
def Gives (x : Attempt σ α) (s : σ) (Q : α → σ → Prop) : Prop := Ends x s Q fun _ _ => True

theorem Gives.imp {Q' : α → σ → Prop} (h : Gives x s Q) (hQ : ∀ a t, Q a t → Q' a t) :
    Gives x s Q' :=
  Ends.imp h hQ fun _ _ he => he

theorem Gives.bind {f : α → Attempt σ β} {Q' : β → σ → Prop} (h : Gives x s Q)
    (hf : ∀ a t, Q a t → Gives (f a) t Q') : Gives (x >>= f) s Q' :=
  Ends.bind h hf

theorem Gives.locate {p : Position} (h : Gives x s Q) : Gives (locate p x) s Q :=
  Ends.locate h fun _ _ he => he

theorem Gives.ensuring {after : Attempt σ Unit} {Q' : α → σ → Prop} (h : Gives x s Q)
    (hafter : ∀ a t, Q a t → Gives after t fun _ u => Q' a u) : Gives (ensuring x after) s Q' := by
  refine ends_ensuring.mpr (Ends.imp h hafter fun e t _ => ?_)
  unfold Ends
  cases after t <;> trivial

/-- What an attempt gives and how it fails, each known by itself. -/
theorem Gives.ends (h : Gives x s Q) (hE : Ends x s (fun _ _ => True) E) : Ends x s Q E := by
  unfold Gives Ends at *
  cases hx : x s with
  | ok a t => rw [hx] at h; exact h
  | error e t => rw [hx] at hE; exact hE

theorem gives_pure {a : α} (h : Q a s) : Gives (pure a) s Q := h

theorem gives_throw (e : Failure) : Gives (throw e) s Q := trivial

theorem gives_fail (cause : Cause) : Gives (fail cause) s Q := trivial

theorem gives_modify {f : σ → σ} {Q : PUnit → σ → Prop} (h : Q ⟨⟩ (f s)) : Gives (modify f) s Q := h

theorem gives_ofExcept {x : Except ε α} (h : ∀ a, x = .ok a → Q a s) :
    Gives (ofExcept x) s Q := by
  cases x with
  | ok a => exact h a rfl
  | error e => exact gives_throw _

theorem gives_const {P : Prop} (h : P) : Gives x s fun _ _ => P := by
  unfold Gives Ends
  cases x s with
  | ok a t => exact h
  | error e t => trivial

/-- If the attempt gives a result, it is as `P` says, and the state is as it was. -/
def Finds (x : Attempt σ α) (s : σ) (P : α → Prop) : Prop := Gives x s fun a t => t = s ∧ P a

variable {P : α → Prop}

theorem Finds.bind {f : α → Attempt σ β} {Q' : β → σ → Prop} (h : Finds x s P)
    (hf : ∀ a, P a → Gives (f a) s Q') : Gives (x >>= f) s Q' := by
  refine Gives.bind h ?_
  rintro a _ ⟨rfl, ha⟩
  exact hf a ha

theorem Finds.locate {p : Position} (h : Finds x s P) : Finds (locate p x) s P := Gives.locate h

theorem finds_pure {a : α} (h : P a) : Finds (pure a) s P := ⟨rfl, h⟩

theorem finds_get : Finds get s (s = ·) := ⟨rfl, rfl⟩

theorem finds_ofExcept {x : Except ε α} (h : ∀ a, x = .ok a → P a) : Finds (ofExcept x) s P :=
  gives_ofExcept fun a ha => ⟨rfl, h a ha⟩

/-! ## Relations between the first state and the last -/

/-- The first state is related to the last, in success and failure. -/
def Keeps (R : σ → σ → Prop) (x : Attempt σ α) : Prop :=
  ∀ s, Ends x s (fun _ t => R s t) (fun _ t => R s t)

variable {R : σ → σ → Prop}

theorem keeps_modify {f : σ → σ} (h : ∀ s, R s (f s)) : Keeps R (modify f : Attempt σ PUnit) := h

theorem keeps_modifyGet {f : σ → α × σ} (h : ∀ s, R s (f s).2) :
    Keeps R (modifyGet f : Attempt σ α) := h

/-- What is known of the end, and what is kept. -/
theorem Ends.and_keeps (h : Ends x s Q E) (hx : Keeps R x) :
    Ends x s (fun a t => Q a t ∧ R s t) fun e t => E e t ∧ R s t := by
  have hs := hx s
  unfold Ends at *
  cases hrun : x s with
  | ok a t =>
    rw [hrun] at h hs
    exact ⟨h, hs⟩
  | error e t =>
    rw [hrun] at h hs
    exact ⟨h, hs⟩

theorem Gives.and_keeps (h : Gives x s Q) (hx : Keeps R x) : Gives x s fun a t => Q a t ∧ R s t :=
  Ends.imp (Ends.and_keeps h hx) (fun _ _ ht => ht) fun _ _ _ => trivial

theorem Keeps.locate {p : Position} (hx : Keeps R x) : Keeps R (locate p x) :=
  fun s => (hx s).locate fun _ _ h => h

theorem Keeps.ite {c : Prop} [Decidable c] {y : Attempt σ α} (hx : Keeps R x) (hy : Keeps R y) :
    Keeps R (if c then x else y) := by
  split
  · exact hx
  · exact hy

section

variable [IsPreorder σ R]

theorem keeps_pure (a : α) : Keeps R (pure a : Attempt σ α) := fun s => refl_of R s

theorem keeps_throw (e : Failure) : Keeps R (throw e : Attempt σ α) := fun s => refl_of R s

theorem keeps_fail (cause : Cause) : Keeps R (fail cause : Attempt σ α) := fun s => refl_of R s

theorem keeps_get : Keeps R (get : Attempt σ σ) := fun s => refl_of R s

theorem keeps_ofExcept (y : Except ε α) : Keeps R (ofExcept y) := fun s => by
  cases y <;> exact refl_of R s

theorem Keeps.bind {f : α → Attempt σ β} (hx : Keeps R x) (hf : ∀ a, Keeps R (f a)) :
    Keeps R (x >>= f) := by
  intro s
  have htrans {t u : σ} : R s t → R t u → R s u := trans_of R
  refine ends_bind.mpr ((hx s).imp (fun a t hst => ?_) fun _ _ h => h)
  exact (hf a t).imp (fun _ _ htu => htrans hst htu) fun _ _ htu => htrans hst htu

theorem Keeps.ensuring {after : Attempt σ Unit} (hx : Keeps R x) (hafter : Keeps R after) :
    Keeps R (ensuring x after) := by
  intro s
  have hboth (t : σ) (hst : R s t) : Ends after t (fun _ u => R s u) fun _ u => R s u :=
    (hafter t).imp (fun _ _ htu => trans_of R hst htu) fun _ _ htu => trans_of R hst htu
  exact ends_ensuring.mpr ((hx s).imp (fun _ t hst => hboth t hst) fun _ t hst => hboth t hst)

/-- As `Keeps.bind`, where `x` only gives what is as `P` says. -/
theorem Keeps.bind_of_gives {f : α → Attempt σ β} (hx : Keeps R x)
    (hP : ∀ s, Gives x s fun a _ => P a) (hf : ∀ a, P a → Keeps R (f a)) : Keeps R (x >>= f) := by
  intro s
  have htrans {t u : σ} : R s t → R t u → R s u := trans_of R
  have hstep : Ends x s (fun a t => P a ∧ R s t) fun _ t => R s t := by
    have hgives := hP s
    have hkeeps := hx s
    unfold Gives Ends at *
    cases hrun : x s with
    | ok a t =>
      rw [hrun] at hgives hkeeps
      exact ⟨hgives, hkeeps⟩
    | error e t =>
      rw [hrun] at hkeeps
      exact hkeeps
  refine ends_bind.mpr (hstep.imp (fun a t hst => ?_) fun _ _ h => h)
  exact (hf a hst.1 t).imp (fun _ _ htu => htrans hst.2 htu) fun _ _ htu => htrans hst.2 htu

theorem keeps_mapM {f : α → Attempt σ β} {xs : List α} (hf : ∀ a ∈ xs, Keeps R (f a)) :
    Keeps R (xs.mapM f) := by
  induction xs with
  | nil =>
    rw [List.mapM_nil]
    exact keeps_pure []
  | cons a xs ih =>
    rw [List.forall_mem_cons] at hf
    rw [List.mapM_cons]
    exact hf.1.bind fun _ => (ih hf.2).bind fun _ => keeps_pure _

theorem keeps_forM {f : α → Attempt σ PUnit} {xs : List α} (hf : ∀ a ∈ xs, Keeps R (f a)) :
    Keeps R (xs.forM f) := by
  induction xs with
  | nil => exact keeps_pure _
  | cons a xs ih =>
    rw [List.forall_mem_cons] at hf
    exact hf.1.bind fun _ => ih hf.2

end

/-! ## Attempts that change nothing -/

/-- The state is as it was, and what fails does so in a way that more fuel does not help. -/
def Inert (x : Attempt σ α) : Prop :=
  ∀ s, Ends x s (fun _ t => s = t) fun e t => s = t ∧ e ≠ .outOfFuel

theorem inert_pure (a : α) : Inert (pure a : Attempt σ α) := fun _ => rfl

theorem inert_throw {e : Failure} (he : e ≠ .outOfFuel) : Inert (throw e : Attempt σ α) :=
  fun _ => ⟨rfl, he⟩

theorem inert_fail (cause : Cause) : Inert (fail cause : Attempt σ α) :=
  inert_throw (Failing.ne_outOfFuel cause)

theorem inert_get : Inert (get : Attempt σ σ) := fun _ => rfl

theorem inert_ofExcept (y : Except ε α) : Inert (ofExcept y : Attempt σ α) := by
  cases y with
  | ok a => exact inert_pure a
  | error e => exact inert_throw (Failing.ne_outOfFuel e)

theorem Inert.bind {f : α → Attempt σ β} (hx : Inert x) (hf : ∀ a, Inert (f a)) :
    Inert (x >>= f) := by
  intro s
  refine ends_bind.mpr ((hx s).imp ?_ fun _ _ h => h)
  rintro a _ rfl
  exact hf a _

theorem Inert.locate {p : Position} (hx : Inert x) : Inert (locate p x) := by
  refine fun s => (hx s).locate fun e t ⟨ht, he⟩ => ⟨ht, ?_⟩
  cases e with
  | outOfFuel => exact absurd rfl he
  | _ => nofun

theorem Inert.ite {c : Prop} [Decidable c] {y : Attempt σ α} (hx : Inert x) (hy : Inert y) :
    Inert (if c then x else y) := by
  split
  · exact hx
  · exact hy

theorem Inert.finds (hx : Inert x) : Finds x s fun _ => True :=
  (hx s).imp (fun _ _ ht => ⟨ht.symm, trivial⟩) fun _ _ _ => trivial

theorem Inert.keeps [IsPreorder σ R] (hx : Inert x) : Keeps R x := by
  refine fun s => (hx s).imp ?_ ?_
  · rintro _ _ rfl
    exact refl_of R _
  · rintro _ _ ⟨rfl, -⟩
    exact refl_of R _

end BlockScript.Attempt
