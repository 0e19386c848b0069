import BlockScript.Proofs.Store.Lookup

/-!
# The scope of a program

Analysis and execution each begin in a new frame, inside the same parent, that knows `print` and
`range`.
-/

namespace BlockScript.Store

variable {s : Store} {parent : Option FrameId} {printing : Body}

/-- The store of a new root before `range` is known there. -/
def printed (s : Store) (parent : Option FrameId) (printing : Body) : Store :=
  ((s.createFrame parent).2.defineFunction ⟨s.frames.size⟩ (printFunction printing)).2

theorem createRoot_eq (s : Store) (parent : Option FrameId) (printing : Body) :
    s.createRoot parent printing =
      (⟨s.frames.size⟩, (s.printed parent printing).bindFunction ⟨s.frames.size⟩ rangeId) := rfl

theorem has_createFrame (s : Store) (parent : Option FrameId) :
    (s.createFrame parent).2.Has ⟨s.frames.size⟩ := by
  simp [Has, createFrame]

theorem has_printed (s : Store) (parent : Option FrameId) (printing : Body) :
    (s.printed parent printing).Has ⟨s.frames.size⟩ :=
  (grows_defineFunction ..).has (has_createFrame s parent)

theorem refines_printed (s : Store) (parent : Option FrameId) (printing : Body) :
    s.Refines (s.printed parent printing) :=
  (grows_createFrame s parent).toRefines.trans (grows_defineFunction ..).toRefines

/-- Whatever happens in a new root, the frames that there were stay as they are. -/
theorem Grows.of_createRoot {t : Store}
    (h : Grows (some ⟨s.frames.size⟩) (s.createRoot parent printing).2 t) : Grows none s t :=
  .of_createFrame (((grows_defineFunction ..).trans (grows_bindFunction ..)).trans h)

theorem grows_createRoot (s : Store) (parent : Option FrameId) (printing : Body) :
    Grows none s (s.createRoot parent printing).2 :=
  .of_createRoot (.refl _ _)

theorem has_createRoot (s : Store) (parent : Option FrameId) (printing : Body) :
    (s.createRoot parent printing).2.Has (s.createRoot parent printing).1 :=
  (grows_bindFunction ..).has (has_printed s parent printing)

/-- The number of `print` in a new root. -/
def printId (s : Store) : FunctionId := ⟨s.functions.size⟩

theorem function_printId (s : Store) (parent : Option FrameId) (printing : Body) :
    (s.createRoot parent printing).2.function s.printId = printFunction printing :=
  (function_defineFunction (s.createFrame parent).2 ⟨s.frames.size⟩ (printFunction printing)
    s.printId).trans (if_pos rfl)

theorem functions_size_createRoot (s : Store) (parent : Option FrameId) (printing : Body) :
    (s.createRoot parent printing).2.functions.size = s.functions.size + 1 := by
  simp [createRoot, defineFunction, createFunction, bindFunction, createFrame]

section

variable (h : s.WellFormed) (hp : ∀ p ∈ parent, s.Has p) (hbody : ∀ m c, printing ≠ .method m c)

include h hp hbody

theorem WellFormed.printed : (s.printed parent printing).WellFormed :=
  (h.createFrame hp).defineFunction _ fun m c hc => absurd hc (hbody m c)

theorem WellFormed.createRoot : (s.createRoot parent printing).2.WellFormed :=
  (h.printed hp hbody).bindFunction _
    (Nat.lt_of_lt_of_le h.range (refines_printed s parent printing).functions)

/-- A new root has no variables of its own. -/
theorem findSlot?_createRoot (id : String) :
    (s.createRoot parent printing).2.findSlot? (s.createRoot parent printing).1 id =
      parent.bind (s.findSlot? · id) := by
  have hrange := Nat.lt_of_lt_of_le h.range (refines_printed s parent printing).functions
  have hcreate := h.createFrame hp
  rw [createRoot_eq, findSlot?_bindFunction (h.printed hp hbody) _ hrange, Store.printed,
    findSlot?_defineFunction hcreate _ fun m c hc => absurd hc (hbody m c),
    findSlot?_createFrame h hp]

theorem findFunction?_createRoot (name : String) (arity : Nat) :
    (s.createRoot parent printing).2.findFunction? (s.createRoot parent printing).1 name arity =
      if (name, arity) = ((s.function rangeId).name, (s.function rangeId).arity) then some rangeId
      else if (name, arity) = ("print", 1) then some s.printId
      else parent.bind (s.findFunction? · name arity) := by
  have hrefines := refines_printed s parent printing
  have hrange := Nat.lt_of_lt_of_le h.range hrefines.functions
  have hfn := hrefines.function rangeId h.range
  have hcreate := h.createFrame hp
  rw [createRoot_eq, findFunction?_bindFunction (h.printed hp hbody) (has_printed ..) hrange,
    Function.arity, hfn.name, hfn.params, Store.printed,
    findFunction?_defineFunction hcreate (has_createFrame s parent)
      fun m c hc => absurd hc (hbody m c), findFunction?_createFrame h hp]
  rfl

end

/-! ## The initial store -/

/-- New members of a type, whatever becomes known of it besides. -/
theorem WellFormed.insertMembers (h : s.WellFormed) (type : Ty) {m : Members}
    (hmethods : ∀ k g, m.methods.find? k = some g → s.Keyed k g)
    (hfields : ∀ k v, m.fields.find? k = some v → v.index < s.slots.size)
    (catalog : Table String Ty) (customTypes : Nat) :
    { s with members := s.members.insert type m, catalog, customTypes : Store }.WellFormed := by
  have hmembers : ∀ t, { s with members := s.members.insert type m, catalog, customTypes : Store
      }.membersOf t = if t = type then m else s.membersOf t := by
    intro t
    simp only [membersOf, Table.find?_insert]
    split <;> rfl
  refine ⟨h.parents, h.slots, h.functions, ?_, ?_, h.closures, h.range⟩
  · intro t k g hg
    rw [hmembers] at hg
    split at hg
    · exact hmethods k g hg
    · exact h.methods t k g hg
  · intro t k v hv
    rw [hmembers] at hv
    split at hv
    · exact hfields k v hv
    · exact h.fields t k v hv

theorem WellFormed.defineMethod (h : s.WellFormed) (type : Ty) (name : String) (params : List Ty)
    (returns : Ty) {body : Body} (hbody : ∀ m c, body ≠ .method m c) :
    (s.defineMethod type name params returns body).2.WellFormed := by
  let fn : Function := ⟨name, type :: params, some returns, body⟩
  have hcreate : (s.createFunction fn).2.WellFormed :=
    h.createFunction fun m c hc => absurd hc (hbody m c)
  have hnew : (s.createFunction fn).2.function ⟨s.functions.size⟩ = fn :=
    (function_createFunction s fn _).trans (if_pos rfl)
  let m : Members := (s.createFunction fn).2.membersOf type
  have hmethods : ∀ k g, (m.methods.insert (name, fn.arity) ⟨s.functions.size⟩).find? k = some g →
      (s.createFunction fn).2.Keyed k g := by
    intro k g hg
    rw [Table.find?_insert] at hg
    split at hg
    · rename_i hk
      cases hg
      refine ⟨by simp [Store.createFunction], ?_⟩
      rw [hnew, hk]
    · exact hcreate.methods type k g hg
  exact hcreate.insertMembers type (m := { m with
    methods := m.methods.insert (name, fn.arity) ⟨s.functions.size⟩ }) hmethods
    (hcreate.fields type) _ _

theorem wellFormed_bare : bare.WellFormed where
  parents f g hg := by simp [bare, frame] at hg
  slots f id v hv := by simp [bare, frame] at hv
  functions f k g hg := by simp [bare, frame] at hg
  methods t k g hg := by simp [bare, membersOf] at hg
  fields t k v hv := by simp [bare, membersOf] at hv
  closures f m c hc := by
    obtain ⟨i⟩ := f
    cases i <;> simp [bare, function, rangeFunction] at hc
  range := Nat.one_pos

theorem wellFormed_initial : initial.WellFormed := by
  have htypes : bare.withTypes.WellFormed := by
    unfold withTypes
    refine List.foldlRecOn (motive := WellFormed) _ _ wellFormed_bare fun s h type _ => ?_
    exact h.insertMembers type (by simp) (by simp) _ _
  unfold initial withMethods
  refine List.foldlRecOn (motive := WellFormed) _ _ htypes ?_
  rintro s h ⟨type, name, params, returns, run⟩ -
  exact h.defineMethod type name params returns (by simp)

end BlockScript.Store
