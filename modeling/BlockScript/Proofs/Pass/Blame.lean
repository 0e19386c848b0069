import BlockScript.Proofs.Pass.Evolution
import Mathlib.Logic.Relation
import Mathlib.Order.WellFounded

/-!
# Where failures are placed

A pass consists of parts that begin one another, and some parts have a place. What fails in a part
makes the part fail, and the part gives the failure its place on the way out. Where each part does
so, a diagnostic has the place of the innermost part that failed, and no part around it changes
that.
-/

namespace BlockScript

/-- A failure that keeps the place that it has, or that cannot have any. -/
def Failure.IsSettled (e : Failure) : Prop := ∀ p, e.locate p = e

namespace Failure

theorem isSettled_locate (e : Failure) (p : Position) : (e.locate p).IsSettled := by
  intro q
  cases e with
  | diagnostic d =>
    obtain ⟨cause, position⟩ := d
    cases position <;> rfl
  | misuse | crash | outOfFuel => rfl

theorem isSettled_of_position {d : Diagnostic} (h : d.position.isSome) :
    (diagnostic d).IsSettled := by
  intro q
  obtain ⟨p, hp⟩ := Option.isSome_iff_exists.mp h
  exact congrArg diagnostic (Diagnostic.locate_of_position q hp)

/-- The failure at a place, if there is one. -/
def locate? (e : Failure) (p : Option Position) : Failure := p.elim e e.locate

theorem IsSettled.locate? {e : Failure} (h : e.IsSettled) (p : Option Position) :
    e.locate? p = e := by
  cases p with
  | none => rfl
  | some p => exact h p

/-- A diagnostic that is no older than the place that it is given. -/
theorem position_of_locate? {e : Failure} {d : Diagnostic} {p : Option Position}
    (h : e.locate? p = .diagnostic d) :
    ∃ c, e = .diagnostic c ∧ (c.position = none → d.position = p) := by
  cases e with
  | diagnostic c =>
    refine ⟨c, rfl, fun hc => ?_⟩
    cases p with
    | none =>
      cases h
      exact hc
    | some p =>
      cases h
      exact congrArg (· <|> some p) hc
  | misuse | crash | outOfFuel => cases p <;> cases h

end Failure

/-! ## Failures of attempts -/

namespace Attempt

variable {σ α β : Type} {s t : σ} {x : Attempt σ α} {e : Failure}

def failure? : EStateM.Result Failure σ α → Option Failure
  | .ok _ _ => none
  | .error e _ => some e

theorem failure?_eq_some {r : EStateM.Result Failure σ α} :
    failure? r = some e ↔ ∃ t, r = .error e t := by
  cases r <;> simp [failure?]

/-- The attempt fails with `e`. -/
def Fails (e : Failure) (x : Attempt σ α) (s : σ) : Prop := failure? (x s) = some e

theorem Fails.bind {f : α → Attempt σ β} (h : Fails e x s) : Fails e (x >>= f) s := by
  obtain ⟨t, ht⟩ := failure?_eq_some.mp h
  refine failure?_eq_some.mpr ⟨t, ?_⟩
  change EStateM.bind x f s = _
  simp only [EStateM.bind, ht]

theorem fails_bind {f : α → Attempt σ β} {r : α} (hx : x s = .ok r t) (h : Fails e (f r) t) :
    Fails e (x >>= f) s := by
  obtain ⟨u, hu⟩ := failure?_eq_some.mp h
  refine failure?_eq_some.mpr ⟨u, ?_⟩
  change EStateM.bind x f s = _
  simp only [EStateM.bind, hx, hu]

theorem Fails.of_bind {f : α → Attempt σ β} (h : Fails e (x >>= f) s) :
    Fails e x s ∨ ∃ r t, x s = .ok r t ∧ Fails e (f r) t := by
  obtain ⟨u, hu⟩ := failure?_eq_some.mp h
  change EStateM.bind x f s = _ at hu
  unfold EStateM.bind at hu
  cases hx : x s with
  | ok r t =>
    rw [hx] at hu
    exact .inr ⟨r, t, rfl, failure?_eq_some.mpr ⟨u, hu⟩⟩
  | error e' t =>
    rw [hx] at hu
    cases hu
    exact .inl (failure?_eq_some.mpr ⟨u, hx⟩)

theorem Fails.mapM_head {f : α → Attempt σ β} {a : α} {as : List α} (h : Fails e (f a) s) :
    Fails e ((a :: as).mapM f) s := by
  rw [List.mapM_cons]
  exact h.bind

theorem fails_mapM_tail {f : α → Attempt σ β} {a : α} {as : List α} {r : β} (ha : f a s = .ok r t)
    (h : Fails e (as.mapM f) t) : Fails e ((a :: as).mapM f) s := by
  rw [List.mapM_cons]
  exact fails_bind ha h.bind

theorem Fails.ensuring {f : σ → σ} (h : Fails e x s) : Fails e (ensuring x (modify f)) s := by
  obtain ⟨t, ht⟩ := failure?_eq_some.mp h
  refine failure?_eq_some.mpr ⟨f t, ?_⟩
  unfold Attempt.ensuring
  rw [ht]
  rfl

theorem Fails.locate {p : Position} (h : Fails e x s) : Fails (e.locate p) (locate p x) s := by
  obtain ⟨t, ht⟩ := failure?_eq_some.mp h
  exact failure?_eq_some.mpr ⟨t, by simp only [Attempt.locate, ht]⟩

theorem Fails.backTo {ρ : Type} {a b : Pass ρ} {x y : Attempt (Pass ρ) α} (h : Fails e x b)
    (hy : y a = a.backTo (x b)) : Fails e y a := by
  obtain ⟨c, hc⟩ := failure?_eq_some.mp h
  exact failure?_eq_some.mpr ⟨a.leave c, by rw [hy, hc]; rfl⟩

/-- What fails in a scope of its own fails all the same when the scope is left. -/
theorem Fails.inScope {ρ : Type} {a : Pass ρ} {x : Attempt (Pass ρ) α} (ha : a.Sound)
    (hx : Keeps (Pass.Steps true) x) (h : Fails e x (a.enterFrame a.scope)) :
    Fails e (Pass.inScope x) a :=
  h.backTo (Pass.inScope_eq ha hx)

theorem ends_settled_locate (p : Position) (x : Attempt σ α) (s : σ) :
    Ends (locate p x) s (fun _ _ => True) fun e _ => e.IsSettled := by
  unfold Ends Attempt.locate
  cases x s with
  | ok r t => trivial
  | error e t => exact e.isSettled_locate p

end Attempt

/-! ## Parts -/

/-- The parts of a pass: which parts a part has begin, its place and how it fails, if it has one
and if it does. -/
structure Nesting (A : Type) where
  Begins : A → A → Prop
  place? : A → Option Position
  failure? : A → Option Failure

namespace Nesting

open Relation

variable {A : Type} (T : Nesting A)

/-- The second part is the first, or it goes on in the first. -/
abbrev Includes : A → A → Prop := ReflTransGen T.Begins

/-- Of all parts of `a` that have a place and fail, `c` is an innermost one. -/
structure Innermost (a c : A) : Prop where
  included : T.Includes a c
  placed : (T.place? c).isSome
  failed : (T.failure? c).isSome
  innermost : ∀ b, TransGen T.Begins c b → (T.place? b).isSome → T.failure? b = none

/-- The diagnostic `d` has a place, that of the innermost part that failed in `a`, and all parts
around that one hand it on as it is. -/
structure Blames (a : A) (d : Diagnostic) : Prop where
  placed : d.position.isSome
  exists_innermost : ∃ c, T.Innermost a c
  position : ∀ c, T.Innermost a c → d.position = T.place? c
  unchanged : ∀ b c, T.Innermost a c → T.Includes a b → T.Includes b c →
    T.failure? b = some (.diagnostic d)

/-- What every part does for its failures. Parts as `Valid` says begin such parts only. -/
structure Lawful (Valid : A → Prop) : Prop where
  wellFounded : WellFounded fun b a => T.Begins a b
  valid {a b : A} (hab : T.Begins a b) (ha : Valid a) : Valid b
  /-- What fails in a part makes the part fail, at its place. -/
  propagates {a b : A} {e : Failure} (hab : T.Begins a b) (ha : Valid a)
    (hb : T.failure? b = some e) : T.failure? a = some (e.locate? (T.place? a))
  /-- A part has a failure from itself or from a part that it has begun. -/
  arises {a : A} {d : Diagnostic} (ha : Valid a) (hfail : T.failure? a = some (.diagnostic d)) :
    d.position = T.place? a ∨ ∃ b, T.Begins a b ∧ (T.failure? b).isSome

variable {T} {Valid : A → Prop} {a b c : A} {d : Diagnostic} {e : Failure}

namespace Lawful

theorem valid_of_includes (hT : T.Lawful Valid) (hac : T.Includes a c) (ha : Valid a) :
    Valid c := by
  induction hac with
  | refl => exact ha
  | tail _ hbc ih => exact hT.valid hbc ih

/-- A failure that has its place passes through all parts around. -/
theorem failure_of_includes (hT : T.Lawful Valid) (hac : T.Includes a c) (ha : Valid a)
    (he : e.IsSettled) (hc : T.failure? c = some e) : T.failure? a = some e := by
  induction hac using ReflTransGen.head_induction_on with
  | refl => exact hc
  | head hab _ ih =>
    have hb := ih (hT.valid hab ha)
    rw [hT.propagates hab ha hb, he.locate?]

/-- If no part with a place has failed inside a part, the place of its failure is its own. -/
theorem position_eq (hT : T.Lawful Valid) (ha : Valid a)
    (hinner : ∀ b, TransGen T.Begins a b → (T.place? b).isSome → T.failure? b = none)
    (hfail : T.failure? a = some (.diagnostic d)) : d.position = T.place? a := by
  induction a using hT.wellFounded.induction generalizing d with
  | _ a ih =>
    obtain hown | ⟨b, hab, hb⟩ := hT.arises ha hfail
    · exact hown
    obtain ⟨e, he⟩ := Option.isSome_iff_exists.mp hb
    -- What failed inside `a` has no place, so its failure comes to `a` without one.
    have hplace : T.place? b = none := by
      by_contra hsome
      have hnone := hinner b (.single hab) (Option.isSome_iff_ne_none.mpr hsome)
      rw [hnone] at he
      cases he
    have hfail' := hT.propagates hab ha he
    rw [hfail, Option.some_inj] at hfail'
    obtain ⟨c, rfl, hc⟩ := Failure.position_of_locate? hfail'.symm
    have hwithin (o : A) (ho : TransGen T.Begins b o) := hinner o (.head hab ho)
    exact hc ((ih b hab (hT.valid hab ha) hwithin he).trans hplace)

/-- Inside a part in which parts with a place fail, one of these is innermost. -/
theorem exists_innermost (hT : T.Lawful Valid) (hac : T.Includes a c)
    (hplace : (T.place? c).isSome) (hfail : (T.failure? c).isSome) : ∃ c, T.Innermost a c := by
  let S : Set A := { b | T.Includes a b ∧ (T.place? b).isSome ∧ (T.failure? b).isSome }
  obtain ⟨b, ⟨hab, hb, hb'⟩, hmin⟩ := hT.wellFounded.transGen.has_min S ⟨c, hac, hplace, hfail⟩
  refine ⟨b, hab, hb, hb', fun o hbo ho => ?_⟩
  by_contra hsome
  exact hmin o ⟨hab.trans hbo.to_reflTransGen, ho, Option.isSome_iff_ne_none.mpr hsome⟩
    (transGen_swap.mpr hbo)

/-- What a diagnostic says about the place holds as soon as any part with a place has failed. -/
theorem blames (hT : T.Lawful Valid) (ha : Valid a) (hfail : T.failure? a = some (.diagnostic d))
    (hac : T.Includes a c) (hplace : (T.place? c).isSome) (hc : (T.failure? c).isSome) :
    T.Blames a d := by
  have hpasses (b : A) (hb : T.Innermost a b) : T.failure? b = some (.diagnostic d) ∧
      d.position = T.place? b := by
    have hvalid := hT.valid_of_includes hb.included ha
    obtain ⟨e, he⟩ := Option.isSome_iff_exists.mp hb.failed
    have hposition (d' : Diagnostic) (hd : e = .diagnostic d') : d'.position = T.place? b :=
      hT.position_eq hvalid hb.innermost (hd ▸ he)
    -- The failure of an innermost part has the place of that part, and keeps it on the way out.
    have hsettled : e.IsSettled := by
      cases e with
      | diagnostic d' => exact Failure.isSettled_of_position (hposition d' rfl ▸ hb.placed)
      | misuse | crash | outOfFuel => exact fun _ => rfl
    have hsame := hT.failure_of_includes hb.included ha hsettled he
    rw [hfail, Option.some_inj] at hsame
    exact ⟨hsame ▸ he, hposition d hsame.symm⟩
  obtain ⟨b, hb⟩ := hT.exists_innermost hac hplace hc
  have hplaced : d.position.isSome := (hpasses b hb).2 ▸ hb.placed
  refine ⟨hplaced, ⟨b, hb⟩, fun o ho => (hpasses o ho).2, fun b o ho hab hbo => ?_⟩
  have hsettled := Failure.isSettled_of_position hplaced
  exact hT.failure_of_includes hbo (hT.valid_of_includes hab ha) hsettled (hpasses o ho).1

end Lawful

/-! ## How a part fails -/

section

open Attempt Pass

variable {σ α β ε : Type} [Failing ε] {s : σ} {x : Attempt σ α} {E E' : Failure → Prop}

/-- Done in the part `a`, the attempt fails as `E` says, or because a part has failed that `a` has
begun. -/
def Stems (T : Nesting A) (E : Failure → Prop) (a : A) (x : Attempt σ α) (s : σ) : Prop :=
  Ends x s (fun _ _ => True) fun e _ => E e ∨ ∃ b, T.Begins a b ∧ (T.failure? b).isSome

theorem Stems.of_fails (h : T.Stems E a x s) (hx : Fails e x s) :
    E e ∨ ∃ b, T.Begins a b ∧ (T.failure? b).isSome := by
  obtain ⟨t, ht⟩ := failure?_eq_some.mp hx
  exact h.of_error ht

theorem stems_pure (r : α) : T.Stems E a (pure r) s := trivial

theorem stems_throw (he : E e) : T.Stems E a (throw e : Attempt σ α) s := .inl he

theorem stems_ofExcept (hE : ∀ e : ε, E (Failing.failure e)) (y : Except ε α) :
    T.Stems E a (ofExcept y) s := by
  cases y with
  | ok r => exact stems_pure r
  | error e => exact stems_throw (hE e)

theorem stems_of_fails (h : ∀ e, Fails e x s → ∃ b, T.Begins a b ∧ (T.failure? b).isSome) :
    T.Stems E a x s := by
  unfold Stems Ends
  cases hx : x s with
  | ok r t => trivial
  | error e t => exact .inr (h e (failure?_eq_some.mpr ⟨t, hx⟩))

theorem stems_part (hab : T.Begins a b) (hb : T.failure? b = Attempt.failure? (x s)) :
    T.Stems E a x s :=
  stems_of_fails fun _ he => ⟨b, hab, Option.isSome_of_eq_some (hb.trans he)⟩

theorem Stems.bind {f : α → Attempt σ β} (hx : T.Stems E a x s)
    (hf : ∀ r t, x s = .ok r t → T.Stems E a (f r) t) : T.Stems E a (x >>= f) s :=
  ends_bind.mpr ((Ends.with_run hx).imp (fun r t hr => hf r t hr.2) fun _ _ he => he.1)

theorem Stems.mapM_cons {f : α → Attempt σ β} {r : α} {rs : List α} (hr : T.Stems E a (f r) s)
    (hrs : ∀ y t, f r s = .ok y t → T.Stems E a (rs.mapM f) t) :
    T.Stems E a ((r :: rs).mapM f) s := by
  rw [List.mapM_cons]
  exact hr.bind fun y t hy => (hrs y t hy).bind fun _ _ _ => trivial

theorem Stems.locate {p : Position} (h : T.Stems E a x s) (hE : ∀ e, E e → E' (e.locate p)) :
    T.Stems E' a (Attempt.locate p x) s := by
  unfold Stems Ends Attempt.locate at *
  cases hx : x s with
  | ok r t => trivial
  | error e t =>
    rw [hx] at h
    exact h.imp_left (hE e)

theorem stems_ask {ρ : Type} {m : Pass ρ} {question : Store → FrameId → Except Cause α}
    (hE : ∀ c, E (.of c)) : T.Stems E a (ask question) m :=
  stems_ofExcept hE (question m.store m.scope)

theorem Stems.of_eq {y : Attempt σ α} {t : σ} (h : T.Stems E a y t) (hrun : x s = y t) :
    T.Stems E a x s := by
  unfold Stems Ends at *
  rwa [hrun]

theorem Stems.backTo {ρ : Type} {m n : Pass ρ} {x y : Attempt (Pass ρ) α}
    (h : T.Stems E a y n) (hrun : x m = m.backTo (y n)) : T.Stems E a x m :=
  (ends_backTo hrun).mpr h

theorem Stems.inScope {ρ : Type} {m : Pass ρ} {x : Attempt (Pass ρ) α} (hm : m.Sound)
    (hx : Keeps (Steps true) x) (h : T.Stems E a x (m.enterFrame m.scope)) :
    T.Stems E a (Pass.inScope x) m :=
  h.backTo (inScope_eq hm hx)

end

end Nesting

end BlockScript
