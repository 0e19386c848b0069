import BlockScript.Proofs.Store.Search

/-!
# Growth of a store

What each change of a store does to its frames, and what all changes have in common: nothing that
the store holds goes away, and at most one frame gets new variables.
-/

namespace BlockScript

theorem FrameId.index_inj {f g : FrameId} : f.index = g.index ↔ f = g := by
  cases f
  cases g
  simp

theorem SlotId.index_inj {v w : SlotId} : v.index = w.index ↔ v = w := by
  cases v
  cases w
  simp

theorem FunctionId.index_inj {x y : FunctionId} : x.index = y.index ↔ x = y := by
  cases x
  cases y
  simp

/-- The same function, whose return type may have become known. -/
structure Function.Refines (f g : Function) : Prop where
  name : g.name = f.name
  params : g.params = f.params
  body : g.body = f.body
  returns : f.returns = none ∨ g.returns = f.returns

theorem Function.Refines.refl (f : Function) : f.Refines f := ⟨rfl, rfl, rfl, .inr rfl⟩

theorem Function.Refines.trans {f g h : Function} (hfg : f.Refines g) (hgh : g.Refines h) :
    f.Refines h where
  name := hgh.name.trans hfg.name
  params := hgh.params.trans hfg.params
  body := hgh.body.trans hfg.body
  returns := by
    rcases hfg.returns with hf | hf
    · exact .inl hf
    · rcases hgh.returns with hg | hg
      · exact .inl (hf.symm.trans hg)
      · exact .inr (hg.trans hf)

/-- Once the return type is known, nothing changes any more. -/
theorem Function.Refines.eq {f g : Function} (h : f.Refines g) (hf : f.returns ≠ none) : g = f := by
  obtain ⟨hname, hparams, hbody, hreturns⟩ := h
  cases f
  cases g
  cases hname
  cases hparams
  cases hbody
  cases hreturns.resolve_left hf
  rfl

namespace Store

section

variable {α : Type} (xs : Array α) (x d : α) (f : α → α) (i j : Nat)

theorem getD_push : (xs.push x).getD i d = if i = xs.size then x else xs.getD i d := by
  simp only [Array.getD_eq_getD_getElem?, Array.getElem?_push]
  split <;> rfl

theorem getD_modify :
    (xs.modify i f).getD j d = if i = j ∧ j < xs.size then f (xs.getD j d) else xs.getD j d := by
  simp only [Array.getD_eq_getD_getElem?, Array.getElem?_modify]
  grind

end

variable {s t u : Store} {f g : FrameId}

/-! ## Changes -/

theorem frame_createFrame (s : Store) (parent : Option FrameId) (f : FrameId) :
    (s.createFrame parent).2.frame f =
      if f.index = s.frames.size then ⟨parent, .empty, .empty⟩ else s.frame f :=
  getD_push ..

theorem frame_defineSlot (s : Store) (f : FrameId) (slot : Slot) (g : FrameId) :
    (s.defineSlot f slot).2.frame g =
      if f = g ∧ s.Has g then
        { s.frame g with slots := (s.frame g).slots.insert slot.name ⟨s.slots.size⟩ }
      else s.frame g := by
  refine (getD_modify ..).trans ?_
  simp only [FrameId.index_inj]
  rfl

theorem frame_bindFunction (s : Store) (f : FrameId) (id : FunctionId) (g : FrameId) :
    (s.bindFunction f id).frame g =
      if f = g ∧ s.Has g then
        { s.frame g with
          functions :=
            (s.frame g).functions.insert ((s.function id).name, (s.function id).arity) id }
      else s.frame g := by
  refine (getD_modify ..).trans ?_
  simp only [FrameId.index_inj]
  rfl

theorem slot_createSlot (s : Store) (slot : Slot) (v : SlotId) :
    (s.createSlot slot).2.slot v = if v.index = s.slots.size then slot else s.slot v :=
  getD_push ..

theorem slot_assign (s : Store) (v : SlotId) (value : Value) (w : SlotId) :
    (s.assign v value).slot w =
      if v = w ∧ w.index < s.slots.size then { s.slot w with value := some value }
      else s.slot w := by
  refine (getD_modify ..).trans ?_
  simp only [SlotId.index_inj]
  rfl

theorem function_createFunction (s : Store) (fn : Function) (f : FunctionId) :
    (s.createFunction fn).2.function f = if f.index = s.functions.size then fn else s.function f :=
  getD_push ..

theorem function_defineFunction (s : Store) (f : FrameId) (fn : Function) (g : FunctionId) :
    (s.defineFunction f fn).2.function g =
      if g.index = s.functions.size then fn else s.function g :=
  getD_push ..

theorem frame_defineFunction (s : Store) (f : FrameId) (fn : Function) (g : FrameId) :
    (s.defineFunction f fn).2.frame g =
      if f = g ∧ s.Has g then
        { s.frame g with
          functions := (s.frame g).functions.insert (fn.name, fn.arity) ⟨s.functions.size⟩ }
      else s.frame g := by
  have hfn := function_createFunction s fn ⟨s.functions.size⟩
  rw [if_pos rfl] at hfn
  have hbind := frame_bindFunction (s.createFunction fn).2 f ⟨s.functions.size⟩ g
  rw [hfn] at hbind
  exact hbind

theorem function_setReturns (s : Store) (f : FunctionId) (type : Ty) (g : FunctionId) :
    (s.setReturns f type).function g =
      if f = g ∧ g.index < s.functions.size then { s.function g with returns := some type }
      else s.function g := by
  refine (getD_modify ..).trans ?_
  simp only [FunctionId.index_inj]
  rfl

/-! ## What all changes have in common -/

/-- What is in the store stays and means the same: variables keep their types, and of functions only
open return types change. -/
structure Refines (s t : Store) : Prop where
  slots : s.slots.size ≤ t.slots.size
  slot : ∀ v : SlotId, v.index < s.slots.size → (t.slot v).type = (s.slot v).type
  functions : s.functions.size ≤ t.functions.size
  function : ∀ f : FunctionId, f.index < s.functions.size → (s.function f).Refines (t.function f)
  members : t.members = s.members
  catalog : t.catalog = s.catalog

/-- Frames stay as they are, but for the frame `own`, in which names may get new meanings. -/
structure Grows (own : Option FrameId) (s t : Store) : Prop extends Refines s t where
  frames : s.frames.size ≤ t.frames.size
  frame : ∀ f, s.Has f → own ≠ some f → t.frame f = s.frame f
  parent : ∀ f, s.Has f → (t.frame f).parent = (s.frame f).parent

theorem Refines.refl (s : Store) : s.Refines s :=
  ⟨Nat.le_refl _, fun _ _ => rfl, Nat.le_refl _, fun _ _ => .refl _, rfl, rfl⟩

theorem Refines.trans (hst : s.Refines t) (htu : t.Refines u) : s.Refines u where
  slots := Nat.le_trans hst.slots htu.slots
  slot v hv := (htu.slot v (Nat.lt_of_lt_of_le hv hst.slots)).trans (hst.slot v hv)
  functions := Nat.le_trans hst.functions htu.functions
  function f hf := (hst.function f hf).trans (htu.function f (Nat.lt_of_lt_of_le hf hst.functions))
  members := htu.members.trans hst.members
  catalog := htu.catalog.trans hst.catalog

variable {own : Option FrameId}

theorem Grows.refl (own : Option FrameId) (s : Store) : Grows own s s :=
  ⟨.refl s, Nat.le_refl _, fun _ _ _ => rfl, fun _ _ => rfl⟩

theorem Grows.has (h : Grows own s t) (hf : s.Has f) : t.Has f := Nat.lt_of_lt_of_le hf h.frames

theorem Grows.trans (hst : Grows own s t) (htu : Grows own t u) : Grows own s u where
  toRefines := hst.toRefines.trans htu.toRefines
  frames := Nat.le_trans hst.frames htu.frames
  frame f hf hown := (htu.frame f (hst.has hf) hown).trans (hst.frame f hf hown)
  parent f hf := (htu.parent f (hst.has hf)).trans (hst.parent f hf)

theorem Grows.of_none (h : Grows none s t) (own : Option FrameId) : Grows own s t :=
  ⟨h.toRefines, h.frames, fun f hf _ => h.frame f hf nofun, h.parent⟩

theorem ne_size_of_has (hf : s.Has f) : f.index ≠ s.frames.size := Nat.ne_of_lt hf

theorem grows_createFrame (s : Store) (parent : Option FrameId) :
    Grows none s (s.createFrame parent).2 := by
  have hframe : ∀ f, s.Has f → (s.createFrame parent).2.frame f = s.frame f := fun f hf => by
    rw [frame_createFrame, if_neg (ne_size_of_has hf)]
  exact {
    slots := Nat.le_refl _
    slot := fun _ _ => rfl
    functions := Nat.le_refl _
    function := fun _ _ => .refl _
    members := rfl
    catalog := rfl
    frames := by simp [createFrame]
    frame := fun f hf _ => hframe f hf
    parent := fun f hf => by rw [hframe f hf] }

/-- What happens inside a new frame is nothing to the frames that there were. -/
theorem Grows.of_createFrame {parent : Option FrameId}
    (h : Grows (some ⟨s.frames.size⟩) (s.createFrame parent).2 t) : Grows none s t := by
  have hcreate := grows_createFrame s parent
  refine ⟨hcreate.toRefines.trans h.toRefines, Nat.le_trans hcreate.frames h.frames, ?_, ?_⟩
  · intro f hf _
    have hne : some (⟨s.frames.size⟩ : FrameId) ≠ some f := by
      rintro ⟨⟩
      exact ne_size_of_has hf rfl
    rw [h.frame f (hcreate.has hf) hne, hcreate.frame f hf nofun]
  · intro f hf
    rw [h.parent f (hcreate.has hf), hcreate.parent f hf]

theorem grows_defineSlot (s : Store) (f : FrameId) (slot : Slot) :
    Grows (some f) s (s.defineSlot f slot).2 where
  slots := by simp [defineSlot, createSlot]
  slot v hv := by
    have h := slot_createSlot s slot v
    rw [if_neg (Nat.ne_of_lt hv)] at h
    exact congrArg Slot.type h
  functions := Nat.le_refl _
  function g _ := .refl _
  members := rfl
  catalog := rfl
  frames := by simp [defineSlot, createSlot]
  frame g _ hown := by
    rw [frame_defineSlot, if_neg]
    rintro ⟨rfl, -⟩
    exact hown rfl
  parent g _ := by
    rw [frame_defineSlot]
    split <;> rfl

theorem grows_assign (s : Store) (v : SlotId) (value : Value) :
    Grows none s (s.assign v value) where
  slots := by simp [assign]
  slot w _ := by
    rw [slot_assign]
    split <;> rfl
  functions := Nat.le_refl _
  function g _ := .refl _
  members := rfl
  catalog := rfl
  frames := Nat.le_refl _
  frame _ _ _ := rfl
  parent _ _ := rfl

theorem grows_setReturns (s : Store) (f : FunctionId) (type : Ty)
    (hf : (s.function f).returns = none) : Grows none s (s.setReturns f type) where
  slots := Nat.le_refl _
  slot _ _ := rfl
  functions := by simp [setReturns]
  function g _ := by
    rw [function_setReturns]
    split
    · rename_i h
      exact ⟨rfl, rfl, rfl, .inl (h.1 ▸ hf)⟩
    · exact .refl _
  members := rfl
  catalog := rfl
  frames := Nat.le_refl _
  frame _ _ _ := rfl
  parent _ _ := rfl

theorem refines_createFunction (s : Store) (fn : Function) :
    s.Refines (s.createFunction fn).2 where
  slots := Nat.le_refl _
  slot _ _ := rfl
  functions := by simp [createFunction]
  function g hg := by
    rw [function_createFunction, if_neg (Nat.ne_of_lt hg)]
    exact .refl _
  members := rfl
  catalog := rfl

theorem grows_bindFunction (s : Store) (f : FrameId) (id : FunctionId) :
    Grows (some f) s (s.bindFunction f id) where
  slots := Nat.le_refl _
  slot _ _ := rfl
  functions := Nat.le_refl _
  function g _ := .refl _
  members := rfl
  catalog := rfl
  frames := by simp [bindFunction]
  frame g _ hown := by
    rw [frame_bindFunction, if_neg]
    rintro ⟨rfl, -⟩
    exact hown rfl
  parent g _ := by
    rw [frame_bindFunction]
    split <;> rfl

theorem grows_defineFunction (s : Store) (f : FrameId) (fn : Function) :
    Grows (some f) s (s.defineFunction f fn).2 := by
  have hbind := grows_bindFunction (s.createFunction fn).2 f ⟨s.functions.size⟩
  exact ⟨(refines_createFunction s fn).trans hbind.toRefines, hbind.frames, hbind.frame,
    hbind.parent⟩

/-! ## Well-formedness -/

theorem Refines.keyed (h : s.Refines t) {k : String × Nat} {f : FunctionId} (hf : s.Keyed k f) :
    t.Keyed k f := by
  obtain ⟨hsize, rfl⟩ := hf
  have hfn := h.function f hsize
  refine ⟨Nat.lt_of_lt_of_le hsize h.functions, ?_⟩
  rw [Function.arity, Function.arity, hfn.name, hfn.params]

theorem WellFormed.createFrame (h : s.WellFormed) {parent : Option FrameId}
    (hp : ∀ p ∈ parent, s.Has p) : (s.createFrame parent).2.WellFormed where
  parents f g hg := by
    rw [frame_createFrame] at hg
    split at hg
    · rename_i hf
      exact hf ▸ hp g hg
    · exact h.parents f g hg
  slots f id v hv := by
    rw [frame_createFrame] at hv
    split at hv
    · cases hv
    · exact h.slots f id v hv
  functions f k g hg := by
    rw [frame_createFrame] at hg
    split at hg
    · cases hg
    · exact h.functions f k g hg
  methods := h.methods
  fields := h.fields
  closures f m c hc := Nat.lt_of_lt_of_le (h.closures f m c hc) (grows_createFrame s parent).frames
  range := h.range

theorem WellFormed.defineSlot (h : s.WellFormed) (f : FrameId) (slot : Slot) :
    (s.defineSlot f slot).2.WellFormed where
  parents g p hp := by
    refine h.parents g p ?_
    rw [frame_defineSlot] at hp
    split at hp <;> exact hp
  slots g id v hv := by
    have hsize := (grows_defineSlot s f slot).slots
    rw [frame_defineSlot] at hv
    split at hv
    · rw [Table.find?_insert] at hv
      split at hv
      · cases hv
        simp [Store.defineSlot, createSlot]
      · exact Nat.lt_of_lt_of_le (h.slots g id v hv) hsize
    · exact Nat.lt_of_lt_of_le (h.slots g id v hv) hsize
  functions g k p hp := by
    refine h.functions g k p ?_
    rw [frame_defineSlot] at hp
    split at hp <;> exact hp
  methods := h.methods
  fields t k v hv := Nat.lt_of_lt_of_le (h.fields t k v hv) (grows_defineSlot s f slot).slots
  closures g m c hc := Nat.lt_of_lt_of_le (h.closures g m c hc) (grows_defineSlot s f slot).frames
  range := h.range

theorem WellFormed.assign (h : s.WellFormed) (v : SlotId) (value : Value) :
    (s.assign v value).WellFormed where
  parents := h.parents
  slots f id w hw := Nat.lt_of_lt_of_le (h.slots f id w hw) (grows_assign s v value).slots
  functions := h.functions
  methods := h.methods
  fields t k w hw := Nat.lt_of_lt_of_le (h.fields t k w hw) (grows_assign s v value).slots
  closures := h.closures
  range := h.range

theorem Keyed.setReturns {k : String × Nat} {g : FunctionId} (h : s.Keyed k g) (f : FunctionId)
    (type : Ty) : (s.setReturns f type).Keyed k g := by
  obtain ⟨hsize, rfl⟩ := h
  refine ⟨by simpa [Store.setReturns] using hsize, ?_⟩
  rw [function_setReturns]
  split <;> rfl

theorem WellFormed.setReturns (h : s.WellFormed) (f : FunctionId) (type : Ty) :
    (s.setReturns f type).WellFormed where
  parents := h.parents
  slots := h.slots
  functions g k p hp := (h.functions g k p hp).setReturns f type
  methods t k g hg := (h.methods t k g hg).setReturns f type
  fields := h.fields
  closures g m c hc := by
    refine h.closures g m c ?_
    rw [function_setReturns] at hc
    split at hc <;> exact hc
  range := by simpa [Store.setReturns] using h.range

theorem WellFormed.bindFunction (h : s.WellFormed) (f : FrameId) {id : FunctionId}
    (hid : id.index < s.functions.size) : (s.bindFunction f id).WellFormed where
  parents g p hp := by
    refine h.parents g p ?_
    rw [frame_bindFunction] at hp
    split at hp <;> exact hp
  slots g name v hv := by
    refine h.slots g name v ?_
    rw [frame_bindFunction] at hv
    split at hv <;> exact hv
  functions g k p hp := by
    rw [frame_bindFunction] at hp
    split at hp
    · rw [Table.find?_insert] at hp
      split at hp
      · rename_i hk
        cases hp
        exact ⟨hid, hk⟩
      · exact h.functions g k p hp
    · exact h.functions g k p hp
  methods := h.methods
  fields := h.fields
  closures g m c hc := by
    have hsize : (s.bindFunction f id).frames.size = s.frames.size := by simp [Store.bindFunction]
    rw [hsize]
    exact h.closures g m c hc
  range := h.range

theorem WellFormed.createFunction (h : s.WellFormed) {fn : Function}
    (hfn : ∀ m c, fn.body = .method m c → s.Has c) : (s.createFunction fn).2.WellFormed := by
  have hrefines := refines_createFunction s fn
  refine ⟨h.parents, h.slots, ?_, ?_, h.fields, ?_, Nat.lt_of_lt_of_le h.range hrefines.functions⟩
  · exact fun f k g hg => hrefines.keyed (h.functions f k g hg)
  · exact fun t k g hg => hrefines.keyed (h.methods t k g hg)
  · intro g m c hc
    rw [function_createFunction] at hc
    split at hc
    · exact hfn m c hc
    · exact h.closures g m c hc

theorem WellFormed.defineFunction (h : s.WellFormed) (f : FrameId) {fn : Function}
    (hfn : ∀ m c, fn.body = .method m c → s.Has c) : (s.defineFunction f fn).2.WellFormed :=
  (h.createFunction hfn).bindFunction f (by simp [Store.createFunction])

end Store

end BlockScript
