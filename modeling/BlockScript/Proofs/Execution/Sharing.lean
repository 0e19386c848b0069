import BlockScript.Proofs.Execution.TwinRuns
import BlockScript.Toolchain

/-!
# Runs over the same store

A program comes to the same over two stores of which the second has all that the first has, and
besides only what no name leads to.
-/

namespace BlockScript

open Attempt Pass

namespace Attempt

section

variable {σ τ α β : Type} {R S : σ → τ → Prop} {Q : α → β → Prop}
  {r : EStateM.Result Failure σ α} {u : EStateM.Result Failure τ β}

theorem Paired.state (h : Paired R Q r u) : R (state r) (state u) := by
  cases h with
  | ok _ hst => exact hst
  | error hst => exact hst

theorem Paired.and_state (h : Paired R Q r u) (hstate : S (Attempt.state r) (Attempt.state u)) :
    Paired (fun a b => R a b ∧ S a b) Q r u := by
  cases h with
  | ok hab hst => exact .ok hab ⟨hst, hstate⟩
  | error hst => exact .error ⟨hst, hstate⟩

end

end Attempt

/-- The store `t` has grown out of `s`, which programs can run over, and all that there was is the
same in it. -/
structure Store.Copies (objects : FrameId → Prop) (s t : Store) : Prop where
  closed : s.Closed objects
  wellFormed : t.WellFormed
  tidy : t.Tidy
  grows : s.Grows none t
  slot : ∀ v : SlotId, v.index < s.slots.size → t.slot v = s.slot v
  function : ∀ x : FunctionId, x.index < s.functions.size → t.function x = s.function x

theorem Store.Closed.copies {s : Store} {objects : FrameId → Prop} (h : s.Closed objects) :
    s.Copies objects s :=
  ⟨h, h.wellFormed, h.tidy, .refl none s, fun _ _ => rfl, fun _ _ => rfl⟩

namespace Twinning

/-- Two machines that begin in stores which have in common all that the first has. -/
def sharing (s t : Store) (objects : FrameId → Prop) : Twinning where
  left := ⟨s, ⟨0⟩, [], 0⟩
  right := ⟨t, ⟨0⟩, [], 0⟩
  scopes := s.Has
  objects := objects
  slot v w := v = w ∧ v.index < s.slots.size
  function x y := x = y ∧ x.index < s.functions.size

variable {s t : Store} {objects : FrameId → Prop} {parent : Option FrameId}

theorem lawful_sharing (h : s.Copies objects t) : (sharing s t objects).Lawful := by
  have hs := h.closed
  have hslots (f : FrameId) (id : String) :
      Option.Rel (sharing s t objects).Slots ((s.frame f).slots.find? id)
        ((s.frame f).slots.find? id) :=
    rel_self fun v hv => .inl ⟨rfl, hs.wellFormed.slots f id v hv⟩
  refine ⟨fun f hf => ⟨hf, h.grows.has hf, ?_⟩,
    fun f hf => ⟨hs.has f hf, h.grows.has (hs.has f hf), ?_⟩, ?_, ?_, ?_, h.grows.members,
    h.grows.catalog, ?_⟩
  · change SameFrames _ (s.frame f) (t.frame f)
    rw [h.grows.frame f hf nofun]
    refine ⟨rel_self fun p hp => .inl ⟨rfl, ?_⟩, hslots f, fun k => rel_self fun x hx => ?_⟩
    · exact Nat.lt_trans (hs.wellFormed.parents f p hp) hf
    · exact .inl ⟨rfl, (hs.wellFormed.functions f k x hx).1⟩
  · change ∀ id, Option.Rel _ ((s.frame f).slots.find? id) ((t.frame f).slots.find? id)
    rw [h.grows.frame f (hs.has f hf) nofun]
    exact hslots f
  · rintro v _ ⟨rfl, hv⟩
    exact ⟨hv, Nat.lt_of_lt_of_le hv h.grows.slots⟩
  · rintro v _ v' _ ⟨rfl, -⟩ ⟨rfl, -⟩
    exact Iff.rfl
  · rintro x _ ⟨rfl, hx⟩
    refine ⟨hx, Nat.lt_of_lt_of_le hx h.grows.functions, ?_⟩
    change SameFunctions _ (s.function x) (t.function x)
    rw [h.function x hx]
    exact .same (hs.natives x) fun d c hc => .inl ⟨rfl, hs.wellFormed.closures x d c hc⟩
  · exact fun u k x hx => ⟨rfl, (hs.wellFormed.methods u k x hx).1⟩

theorem twins_sharing (h : s.Copies objects t) (hparent : ∀ p ∈ parent, s.Has p) :
    (sharing s t objects).Twins (.start s parent) (.start t parent) := by
  have hs := h.closed
  have hlawful := lawful_sharing h
  have hself : (sharing s t objects).Alike _ _ := alike_self ⟨hs.wellFormed, hs.tidy⟩
    ⟨h.wellFormed, h.tidy⟩ rfl fun v w ⟨hvw, hv⟩ => hvw ▸ ⟨(h.slot v hv).symm, hs.values v⟩
  let root (u : Store) : Machine := ⟨(u.createFrame parent).2, ⟨u.frames.size⟩, [], 0⟩
  have hroot : (sharing s t objects).Twins (root s) (root t) :=
    hself.createFrame hlawful (rel_self fun p hp => .inl ⟨rfl, hparent p hp⟩) hparent
  let printed (u : Store) : Machine := ⟨u.printed parent .print, ⟨u.frames.size⟩, [], 0⟩
  have hprinted : (sharing s t objects).Twins (printed s) (printed t) :=
    hroot.defineFunction hlawful (F := Store.printFunction .print)
      (G := Store.printFunction .print) ⟨rfl, rfl, .print⟩ nofun nofun
  have hrange : (sharing s t objects).Functions Store.rangeId Store.rangeId :=
    .inl ⟨rfl, hs.wellFormed.range⟩
  have hleft : (printed s).store.function Store.rangeId = s.function Store.rangeId :=
    hprinted.left.functions Store.rangeId hs.wellFormed.range
  have hright : (printed t).store.function Store.rangeId = s.function Store.rangeId :=
    (hprinted.right.functions Store.rangeId h.wellFormed.range).trans
      (h.function Store.rangeId hs.wellFormed.range)
  refine hprinted.bindFunction hlawful hrange ?_ ?_ ?_ ?_
  · exact Nat.lt_of_lt_of_le hs.wellFormed.range hprinted.left.grows.functions
  · exact Nat.lt_of_lt_of_le h.wellFormed.range hprinted.right.grows.functions
  · rw [hleft]
    exact fun d c hc => absurd hc (hs.range d c)
  · rw [hright]
    exact fun d c hc => absurd hc (hs.range d c)

end Twinning

/-- Over what a program has left, other programs can run. -/
theorem Store.Closed.run {s : Store} {objects : FrameId → Prop} {parent : Option FrameId}
    (h : s.Closed objects) (hparent : ∀ p ∈ parent, s.Has p) (p : Program) (fuel : Nat) :
    (state (p.run fuel s parent)).store.Closed objects := by
  let τ := Twinning.sharing s s objects
  have hlawful : τ.Lawful := Twinning.lawful_sharing h.copies
  have hrun : Paired τ.Twins τ.Values (p.run fuel s parent) (p.run fuel s parent) :=
    Twinning.parallel_program hlawful fuel p _ _ (Twinning.twins_sharing h.copies hparent)
  have htwins := hrun.state
  refine ⟨htwins.left.wellFormed, htwins.left.tidy, fun f hf => htwins.left.grows.has (h.has f hf),
    fun v => ?_, fun x run hx => ?_, ?_⟩
  · have hself : τ.Slots v v := by
      by_cases hv : v.index < s.slots.size
      · exact .inl ⟨rfl, hv⟩
      · exact .inr ⟨Nat.not_lt.mp hv, rfl⟩
    exact (htwins.sameSlots hself).2
  · have hself : τ.Functions x x := by
      by_cases hx : x.index < s.functions.size
      · exact .inl ⟨rfl, hx⟩
      · exact .inr ⟨Nat.not_lt.mp hx, rfl⟩
    have hbody := (htwins.sameFunctions hlawful hself).body
    rw [hx] at hbody
    cases hbody with
    | native hwithin => exact hwithin
  · rw [htwins.left.functions Store.rangeId h.wellFormed.range]
    exact h.range

end BlockScript
