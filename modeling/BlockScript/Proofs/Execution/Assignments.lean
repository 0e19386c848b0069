import BlockScript.Proofs.Execution.Walk

/-!
# Only assignments change variables

Of what there was in the store, a run changes nothing but the values of variables, and these only to
what one of its assignments stores there.
-/

namespace BlockScript

/-! ## Stores -/

/-- Variables that there were are the same but for values that are as `P` says, and functions that
there were are the same. -/
structure Store.Alters (P : SlotId → Value → Prop) (s t : Store) : Prop where
  slots : s.slots.size ≤ t.slots.size
  slot : ∀ v : SlotId, v.index < s.slots.size →
    t.slot v = s.slot v ∨ ∃ w, P v w ∧ t.slot v = { s.slot v with value := some w }
  functions : s.functions.size ≤ t.functions.size
  function : ∀ x : FunctionId, x.index < s.functions.size → t.function x = s.function x
  customTypes : t.customTypes = s.customTypes

namespace Store

variable {P Q : SlotId → Value → Prop} {s t u : Store}

theorem Alters.refl (P : SlotId → Value → Prop) (s : Store) : s.Alters P s :=
  ⟨Nat.le_refl _, fun _ _ => .inl rfl, Nat.le_refl _, fun _ _ => rfl, rfl⟩

theorem Alters.trans (hst : s.Alters P t) (htu : t.Alters P u) : s.Alters P u where
  slots := Nat.le_trans hst.slots htu.slots
  slot v hv := by
    rcases htu.slot v (Nat.lt_of_lt_of_le hv hst.slots) with hsame | ⟨w, hw, hlast⟩
    · rw [hsame]
      exact hst.slot v hv
    · refine .inr ⟨w, hw, ?_⟩
      rcases hst.slot v hv with hsame | ⟨w', -, hfirst⟩
      · rw [hlast, hsame]
      · rw [hlast, hfirst]
  functions := Nat.le_trans hst.functions htu.functions
  function x hx :=
    (htu.function x (Nat.lt_of_lt_of_le hx hst.functions)).trans (hst.function x hx)
  customTypes := htu.customTypes.trans hst.customTypes

theorem Alters.mono (h : s.Alters P t) (hPQ : ∀ v w, P v w → Q v w) : s.Alters Q t :=
  { h with
    slot := fun v hv => (h.slot v hv).imp_right fun ⟨w, hw, hlast⟩ => ⟨w, hPQ v w hw, hlast⟩ }

theorem alters_createFrame (s : Store) (parent : Option FrameId) :
    s.Alters P (s.createFrame parent).2 :=
  { Alters.refl P s with }

theorem alters_defineSlot (s : Store) (f : FrameId) (slot : Slot) :
    s.Alters P (s.defineSlot f slot).2 :=
  { Alters.refl P s with
    slots := (grows_defineSlot s f slot).slots
    slot := fun v hv => .inl ((slot_createSlot s slot v).trans (if_neg (Nat.ne_of_lt hv))) }

theorem alters_assign (s : Store) {v : SlotId} {w : Value} (h : P v w) :
    s.Alters P (s.assign v w) :=
  { Alters.refl P s with
    slots := (grows_assign s v w).slots
    slot := fun u _ => by
      rw [slot_assign]
      split
      · rename_i huv
        obtain rfl := huv.1
        exact .inr ⟨w, h, rfl⟩
      · exact .inl rfl }

theorem alters_defineFunction (s : Store) (f : FrameId) (fn : Function) :
    s.Alters P (s.defineFunction f fn).2 :=
  { Alters.refl P s with
    functions := (grows_defineFunction s f fn).functions
    function := fun x hx => by rw [function_defineFunction, if_neg (Nat.ne_of_lt hx)] }

end Store

/-! ## Runs -/

open Activity

/-- Where what the parts of an activity store is what it stores, it changes no other variables. -/
theorem Activity.accounts_alters {P : Activity → SlotId → Value → Prop}
    (hpart : ∀ {a b v w}, a.Begins b → P b v w → P a v w)
    (hassign : ∀ {a v w}, a.Assigns v w → P a v w) :
    Accounts fun a m n => m.store.Alters (P a) n.store where
  still {a m n} hstore _ := by
    rw [hstore]
    exact .refl (P a) m.store
  trans hmn hno := hmn.trans hno
  part hab h := h.mono fun _ _ => hpart hab
  frame hstore _ := by
    rw [hstore]
    exact Store.alters_createFrame _ _
  slot _ _ _ := Store.alters_defineSlot _ _ _
  function _ m _ fn _ := Store.alters_defineFunction m.store m.scope fn
  assign ha m := Store.alters_assign m.store (hassign ha)
  note a m _ _ := .refl (P a) m.store
  print _ := .refl _ _

theorem Activity.accounts_stores : Accounts fun a m n => m.store.Alters a.Stores n.store :=
  accounts_alters (fun hab h => h.of_includes (.single hab)) fun ha => ⟨_, .refl, ha⟩

/-- A run of a program changes variables that there were only by its assignments. -/
theorem Run.alters_program {k : Nat} (p : Program) {m : Machine} (hm : m.Sound) :
    Walks (fun m n => m.store.Alters (Stores ⟨k, .program p, m⟩) n.store) (program k p) m :=
  walks_program accounts_stores p hm

end BlockScript
