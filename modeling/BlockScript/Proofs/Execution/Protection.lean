import BlockScript.Proofs.Execution.Assignments
import BlockScript.Proofs.Execution.Sharing
import BlockScript.Proofs.Soundness.Programs
import BlockScript.Proofs.Store.Hosting
import BlockScript.Proofs.Typing.Sparing

/-!
# Programs leave what they find

Of a store that is there before a program, the analysis changes nothing, and a run nothing but the
values of variables to which it assigns. So the analysis makes no difference to the run after it.
This is about what programs do; what a host's function does to the host's own objects is not
described (see `Body.native`).
-/

namespace BlockScript

open Attempt

variable {s t : Store} {parent : Option FrameId} {objects : FrameId → Prop}

/-- In all that `base` has, `t` is as `s`, but for variables, for which `R` says what they were and
are. -/
structure Store.Matches (base : Store) (R : SlotId → Slot → Slot → Prop) (s t : Store) : Prop where
  frame : ∀ f, base.Has f → t.frame f = s.frame f
  slot : ∀ v : SlotId, v.index < base.slots.size → R v (s.slot v) (t.slot v)
  function : ∀ x : FunctionId, x.index < base.functions.size → t.function x = s.function x
  members : t.members = s.members
  catalog : t.catalog = s.catalog
  customTypes : t.customTypes = s.customTypes

/-- In all that `base` has, `t` is as `s`. -/
def Store.Same (base s t : Store) : Prop := base.Matches (fun _ old new => new = old) s t

/-- The variable is the same, and its value too if it is none that the activity stores there. -/
def Activity.Leaves (a : Activity) (v : SlotId) (old new : Slot) : Prop :=
  new = old ∨ ∃ w, a.Stores v w ∧ new = { old with value := some w }

/-- What spares all alters nothing. -/
theorem Store.Spares.alters {P : SlotId → Value → Prop} (h : s.Spares none t) : s.Alters P t where
  slots := h.slots
  slot v hv := .inl (h.slot v hv)
  functions := h.functions
  function x hx := h.function x hx nofun
  customTypes := h.customTypes

namespace Program

section

variable (hs : s.WellFormed) (hparent : ∀ f ∈ parent, s.Has f) (p : Program)
include hs hparent

/-- What the analysis makes of a store, in success and failure. -/
theorem grows_check : s.Grows none (state (p.check s parent)).store ∧
    s.Spares none (state (p.check s parent)).store := by
  have hguards := guards_check hs hparent p
  have habsent : ∀ d c, Body.absent ≠ .method d c := nofun
  exact ⟨.of_createRoot hguards.grows, (Store.spares_createRoot s parent habsent).trans
    hguards.spares⟩

theorem same_check : s.Same s (state (p.check s parent)).store := by
  obtain ⟨hgrows, hspares⟩ := grows_check hs hparent p
  exact {
    frame := fun f hf => hgrows.frame f hf nofun
    slot := hspares.slot
    function := fun x hx => hspares.function x hx nofun
    members := hgrows.members
    catalog := hgrows.catalog
    customTypes := hspares.customTypes }

/-- What a run makes of a store, in success and failure. -/
theorem grows_run (fuel : Nat) : s.Grows none (state (p.run fuel s parent)).store ∧
    s.Alters (Activity.Stores ⟨fuel, .program p, .start s parent⟩)
      (state (p.run fuel s parent)).store := by
  have hsound := Machine.sound_start hs hparent
  have hextends := Ends.state (Run.keeps_program fuel p (Machine.start s parent)) hsound
  have halters := Ends.state (Run.alters_program p hsound (k := fuel))
  have hprint : ∀ d c, Body.print ≠ .method d c := nofun
  refine ⟨.of_createRoot hextends.grows, ?_⟩
  exact ((Store.spares_createRoot s parent hprint).alters).trans halters.2

theorem matches_run (fuel : Nat) :
    s.Matches (Activity.Leaves ⟨fuel, .program p, .start s parent⟩) s
      (state (p.run fuel s parent)).store := by
  obtain ⟨hgrows, halters⟩ := grows_run hs hparent p fuel
  exact {
    frame := fun f hf => hgrows.frame f hf nofun
    slot := halters.slot
    function := halters.function
    members := hgrows.members
    catalog := hgrows.catalog
    customTypes := halters.customTypes }

end

/-- A store that a program has been analysed over has all that it had, and no name leads to what has
been added. -/
theorem copies_check (hs : s.Closed objects) (hparent : ∀ f ∈ parent, s.Has f) (p : Program) :
    s.Copies objects (state (p.check s parent)).store := by
  have hguards := guards_check hs.wellFormed hparent p
  obtain ⟨hgrows, hspares⟩ := grows_check hs.wellFormed hparent p
  have habsent : ∀ d c, Body.absent ≠ .method d c := nofun
  have hroot := hs.tidy.createRoot hs.wellFormed hparent habsent hs.range
  exact ⟨hs, hguards.sound.store, hguards.tidy hroot, hgrows, hspares.slot, fun x hx =>
    hspares.function x hx nofun⟩

/-- Over stores that have in common all that the first has, runs come to the same. -/
theorem paired_run (h : s.Copies objects t) (hst : s.Same s t)
    (hparent : ∀ f ∈ parent, s.Has f) (p : Program) (fuel : Nat) :
    Paired (fun m n => n.log = m.log ∧ s.Same m.store n.store) Eq (p.run fuel s parent)
      (p.run fuel t parent) := by
  have hpaired : Paired (Twinning.sharing s t objects).Twins (Twinning.sharing s t objects).Values
      (p.run fuel s parent) (p.run fuel t parent) :=
    Twinning.parallel_program (Twinning.lawful_sharing h) fuel p _ _
      (Twinning.twins_sharing h hparent)
  have hleft := matches_run h.closed.wellFormed hparent p fuel
  have hright := matches_run h.wellFormed (fun f hf => h.grows.has (hparent f hf)) p fuel
  have hmatches : s.Same (state (p.run fuel s parent)).store
      (state (p.run fuel t parent)).store := {
    frame := fun f hf => by
      rw [hright.frame f (h.grows.has hf), hst.frame f hf, hleft.frame f hf]
    slot := fun v hv => (hpaired.state.slot v v ⟨rfl, hv⟩).1.symm
    function := fun x hx => by
      rw [hright.function x (Nat.lt_of_lt_of_le hx h.grows.functions), hst.function x hx,
        hleft.function x hx]
    members := by rw [hright.members, hst.members, hleft.members]
    catalog := by rw [hright.catalog, hst.catalog, hleft.catalog]
    customTypes := by rw [hright.customTypes, hst.customTypes, hleft.customTypes] }
  have hboth := hpaired.and_state (S := fun m n => s.Same m.store n.store) hmatches
  refine hboth.imp ?_ fun v w hvw => hvw.1
  rintro m n ⟨hmn, hmatches⟩
  obtain ⟨added, hm, hn⟩ := hmn.log
  exact ⟨hn.trans hm.symm, hmatches⟩

/-- Of a store that there is before a program, the analysis changes nothing, and a run only the
values of variables, to what an assignment in it stores there. Whether an accepted program has been
analysed before makes no difference to its run. -/
theorem protects (hs : s.WellFormed) (hparent : ∀ f ∈ parent, s.Has f) (p : Program) :
    s.Same s (state (p.check s parent)).store ∧
    (∀ fuel, s.Matches (Activity.Leaves ⟨fuel, .program p, .start s parent⟩) s
      (state (p.run fuel s parent)).store) ∧
    ∀ objects typed a, s.Closed objects → p.check s parent = .ok typed a → ∀ fuel,
      Paired (fun m n => n.log = m.log ∧ s.Same m.store n.store) Eq (p.run fuel s parent)
        (typed.erase.run fuel a.store parent) := by
  refine ⟨same_check hs hparent p, matches_run hs hparent p, ?_⟩
  intro objects typed a hclosed hcheck fuel
  have hcopies := copies_check hclosed hparent p
  have hsame := same_check hs hparent p
  rw [hcheck] at hcopies hsame
  rw [(settled_of_check hs hparent hcheck).erase]
  exact paired_run hcopies hsame hparent p fuel

/-- A program that assigns to a variable of its host. -/
def raising : Program :=
  let level : Expr := .name .start "level"
  ⟨[], [⟨.start, "main", [], none,
    [.assign .start level (.binary .start .add level (.literal .start (.integer 1 "1"))),
      .ret .start level]⟩]⟩

/-- The store of a host with one variable. -/
def levelled : Store :=
  ((Store.initial.createFrame none).2.defineSlot ⟨0⟩ ⟨"level", .integer, some (.integer 1)⟩).2

theorem protects_raising : ∃ typed a, levelled.WellFormed ∧ levelled.Has ⟨0⟩ ∧
    levelled.Closed (levelled.Aside (some ⟨0⟩)) ∧
    raising.check levelled (some ⟨0⟩) = .ok typed a ∧
    (levelled.slot ⟨0⟩).value = some (.integer 1) ∧
    ((state (raising.run 1 levelled (some ⟨0⟩))).store.slot ⟨0⟩).value = some (.integer 2) ∧
    levelled.Same levelled (state (raising.check levelled (some ⟨0⟩))).store ∧
    levelled.Matches (Activity.Leaves ⟨1, .program raising, .start levelled (some ⟨0⟩)⟩) levelled
      (state (raising.run 1 levelled (some ⟨0⟩))).store ∧
    Paired (fun m n => n.log = m.log ∧ levelled.Same m.store n.store) Eq
      (raising.run 1 levelled (some ⟨0⟩)) (typed.erase.run 1 a.store (some ⟨0⟩)) := by
  have hhost := Store.furnished_initial.createScope
  have hs : levelled.Furnished (some ⟨0⟩) := by
    refine (hhost.defineSlot ⟨0⟩ ?_).furnished
    rintro _ ⟨⟩
    nofun
  have hhas : levelled.Has ⟨0⟩ := hs.has ⟨0⟩ rfl
  have hclosed := hs.hosted.closed
  have hparent : ∀ f ∈ some (⟨0⟩ : FrameId), levelled.Has f := hs.has
  have haccepted : (result (raising.check levelled (some ⟨0⟩))).isOk = true := by decide +kernel
  have hraised : ((state (raising.run 1 levelled (some ⟨0⟩))).store.slot ⟨0⟩).value =
      some (.integer 2) := by
    decide +kernel
  obtain ⟨hsame, hmatches, hpaired⟩ := protects hs.wellFormed hparent raising
  cases hcheck : raising.check levelled (some ⟨0⟩) with
  | ok typed a =>
    rw [hcheck] at hsame
    exact ⟨typed, a, hs.wellFormed, hhas, hclosed, rfl, rfl, hraised, hsame, hmatches 1,
      hpaired _ _ _ hclosed hcheck 1⟩
  | error e a =>
    rw [hcheck] at haccepted
    cases haccepted

end Program

end BlockScript
