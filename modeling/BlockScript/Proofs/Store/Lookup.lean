import BlockScript.Proofs.Store.Growth

/-!
# Looking names up while a store grows

A name means the same in a frame as long as neither that frame nor one around it gets a variable of
that name. A new frame knows what the one around it knows.
-/

namespace BlockScript.Store

variable {β : Type} {s t : Store} {f g : FrameId} {id : String} {name : String} {arity : Nat}

/-! ## What is found -/

theorem exists_of_search {q : Frame → Option β} {b : β} (h : s.search q f = some b) :
    ∃ g, q (s.frame g) = some b := by
  obtain ⟨g, -, hg⟩ := List.exists_of_findSome?_eq_some h
  exact ⟨g, hg⟩

theorem WellFormed.findSlot? (h : s.WellFormed) {v : SlotId} (hv : s.findSlot? f id = some v) :
    v.index < s.slots.size := by
  rw [findSlot?_eq_search] at hv
  obtain ⟨g, hg⟩ := exists_of_search hv
  exact h.slots g id v hg

theorem WellFormed.findFunction? (h : s.WellFormed) {k : FunctionId}
    (hk : s.findFunction? f name arity = some k) : s.Keyed (name, arity) k := by
  rw [findFunction?_eq_search] at hk
  obtain ⟨g, hg⟩ := exists_of_search hk
  exact h.functions g _ k hg

theorem lookupSlot_eq_ok {v : SlotId} : s.lookupSlot f id = .ok v ↔ s.findSlot? f id = some v := by
  unfold lookupSlot
  cases s.findSlot? f id <;> simp

theorem lookupFunction_eq_ok {k : FunctionId} :
    s.lookupFunction f name arity = .ok k ↔ s.findFunction? f name arity = some k := by
  unfold lookupFunction
  cases s.findFunction? f name arity <;> simp

theorem lookupField_eq_ok {type : Ty} {v : SlotId} :
    s.lookupField type name = .ok v ↔ (s.membersOf type).fields.find? name = some v := by
  unfold lookupField
  cases (s.membersOf type).fields.find? name <;> simp

theorem lookupMethod_eq_ok {type : Ty} {k : FunctionId} :
    s.lookupMethod type name arity = .ok k ↔ s.findMethod? type name arity = some k := by
  unfold lookupMethod
  cases s.findMethod? type name arity <;> simp

/-! ## Named types -/

theorem namedType_congr (h : t.catalog = s.catalog) (name : Option String) :
    t.namedType name = s.namedType name := by
  cases name with
  | none => rfl
  | some name => rw [namedType, lookupType, h, namedType, lookupType]

theorem typeOrAny_congr (h : t.catalog = s.catalog) (name : Option String) :
    t.typeOrAny name = s.typeOrAny name := by
  rw [typeOrAny, namedType_congr h, typeOrAny]

theorem paramTypes_congr (h : t.catalog = s.catalog) (ps : List Param) :
    t.paramTypes ps = s.paramTypes ps := by
  induction ps with
  | nil => rfl
  | cons p ps ih => rw [paramTypes, typeOrAny_congr h, ih, paramTypes]

/-! ## Types of parameters -/

section

variable {ε α γ : Type} {x : Except ε α} {k : α → Except ε γ}

theorem bind_eq_ok {c : γ} : x >>= k = .ok c ↔ ∃ a, x = .ok a ∧ k a = .ok c := by
  cases x <;> simp [bind, Except.bind]

theorem bind_eq_error {e : ε} :
    x >>= k = .error e ↔ x = .error e ∨ ∃ a, x = .ok a ∧ k a = .error e := by
  cases x <;> simp [bind, Except.bind]

end

theorem paramTypes_length {ps : List Param} {types : List Ty}
    (h : s.paramTypes ps = .ok types) : types.length = ps.length := by
  induction ps generalizing types with
  | nil =>
    cases h
    rfl
  | cons p ps ih =>
    obtain ⟨type, -, hrest⟩ := bind_eq_ok.mp h
    obtain ⟨rest, hps, hpure⟩ := bind_eq_ok.mp hrest
    cases hpure
    rw [List.length_cons, List.length_cons, ih hps]

/-- The types in the head of a method. -/
theorem signature_length {α : Type} {ps : List Param} {x : Except Cause α} {r : List Ty × α}
    (h : (do return (← s.paramTypes ps, ← x)) = Except.ok r) : r.1.length = ps.length := by
  obtain ⟨types, hps, hrest⟩ := bind_eq_ok.mp h
  obtain ⟨a, -, hpure⟩ := bind_eq_ok.mp hrest
  cases hpure
  exact paramTypes_length hps

/-! ## New frames -/

theorem search_createFrame (h : s.WellFormed) {parent : Option FrameId}
    (hp : ∀ p ∈ parent, s.Has p) (q : Frame → Option β)
    (hq : ∀ parent, q ⟨parent, .empty, .empty⟩ = none) :
    (s.createFrame parent).2.search q ⟨s.frames.size⟩ = parent.bind (s.search q) := by
  have hcreate := h.createFrame hp
  have hnew : (s.createFrame parent).2.frame ⟨s.frames.size⟩ = ⟨parent, .empty, .empty⟩ := by
    rw [frame_createFrame, if_pos rfl]
  rw [search_eq hcreate, hnew, hq, Option.none_or]
  cases parent with
  | none => rfl
  | some f =>
    refine search_congr h hcreate q fun g hg => ?_
    have hne : g.index ≠ s.frames.size := Nat.ne_of_lt (Nat.lt_of_le_of_lt hg (hp f rfl))
    rw [frame_createFrame, if_neg hne]
    exact ⟨rfl, rfl⟩

theorem findSlot?_createFrame (h : s.WellFormed) {parent : Option FrameId}
    (hp : ∀ p ∈ parent, s.Has p) (id : String) :
    (s.createFrame parent).2.findSlot? ⟨s.frames.size⟩ id = parent.bind (s.findSlot? · id) :=
  search_createFrame h hp (variableIn id) fun _ => Table.find?_empty id

theorem findFunction?_createFrame (h : s.WellFormed) {parent : Option FrameId}
    (hp : ∀ p ∈ parent, s.Has p) (name : String) (arity : Nat) :
    (s.createFrame parent).2.findFunction? ⟨s.frames.size⟩ name arity =
      parent.bind (s.findFunction? · name arity) :=
  search_createFrame h hp (functionIn name arity) fun _ => Table.find?_empty (name, arity)

/-! ## Growth -/

variable {own : Option FrameId}

/-- Variables of a frame that is not inside the one that gets new variables. -/
theorem Grows.findSlot? (h : Grows own s t) (hs : s.WellFormed) (ht : t.WellFormed) (hf : s.Has f)
    (hown : ∀ o ∈ own, f.index < o.index) (id : String) : t.findSlot? f id = s.findSlot? f id := by
  refine search_congr hs ht (variableIn id) fun g hg => ?_
  have hframe : t.frame g = s.frame g := by
    refine h.frame g (Nat.lt_of_le_of_lt hg hf) fun hg' => ?_
    have := hown g hg'
    omega
  rw [hframe]
  exact ⟨rfl, rfl⟩

/-- Functions of any frame, when the one that changes keeps its functions. -/
theorem Grows.findFunction? (h : Grows own s t) (hs : s.WellFormed) (ht : t.WellFormed)
    (hf : s.Has f) (htable : ∀ o ∈ own, (t.frame o).functions = (s.frame o).functions)
    (name : String) (arity : Nat) :
    t.findFunction? f name arity = s.findFunction? f name arity := by
  refine search_congr hs ht (functionIn name arity) fun g hg => ?_
  have hg' : s.Has g := Nat.lt_of_le_of_lt hg hf
  have hfunctions : (t.frame g).functions = (s.frame g).functions := by
    by_cases hown : own = some g
    · exact htable g hown
    · rw [h.frame g hg' hown]
  rw [functionIn, functionIn, hfunctions]
  exact ⟨rfl, h.parent g hg'⟩

/-! ## Definitions -/

/-- A change of one frame changes what is found from there if it changes what the frame answers. -/
theorem search_eq_of_frame (hs : s.WellFormed) (ht : t.WellFormed) (q : Frame → Option β)
    (hparent : (t.frame f).parent = (s.frame f).parent)
    (hframe : ∀ g : FrameId, g.index < f.index → t.frame g = s.frame g) :
    t.search q f = (q (t.frame f)).or ((s.frame f).parent.bind (s.search q)) := by
  rw [search_eq ht, hparent]
  cases hp : (s.frame f).parent with
  | none => rfl
  | some g =>
    have hg := hs.parents f g hp
    have houter : t.search q g = s.search q g := search_congr hs ht q fun k hk => by
      rw [hframe k (Nat.lt_of_le_of_lt hk hg)]
      exact ⟨rfl, rfl⟩
    simp only [Option.bind_some, houter]

theorem findSlot?_defineSlot (h : s.WellFormed) (hf : s.Has f) (slot : Slot) (id : String) :
    (s.defineSlot f slot).2.findSlot? f id =
      if id = slot.name then some ⟨s.slots.size⟩ else s.findSlot? f id := by
  have hframe := frame_defineSlot s f slot
  have hself := hframe f
  rw [if_pos ⟨rfl, hf⟩] at hself
  have hother : ∀ g : FrameId, g.index < f.index → (s.defineSlot f slot).2.frame g = s.frame g := by
    intro g hg
    rw [hframe, if_neg]
    rintro ⟨rfl, -⟩
    omega
  rw [findSlot?_eq_search, findSlot?_eq_search,
    search_eq_of_frame h (h.defineSlot f slot) _ (by rw [hself]) hother, hself, search_eq h]
  simp only [variableIn, Table.find?_insert]
  split <;> rfl

theorem findFunction?_bindFunction (h : s.WellFormed) (hf : s.Has f) {k : FunctionId}
    (hk : k.index < s.functions.size) (name : String) (arity : Nat) :
    (s.bindFunction f k).findFunction? f name arity =
      if (name, arity) = ((s.function k).name, (s.function k).arity) then some k
      else s.findFunction? f name arity := by
  have hframe := frame_bindFunction s f k
  have hself := hframe f
  rw [if_pos ⟨rfl, hf⟩] at hself
  have hother : ∀ g : FrameId, g.index < f.index → (s.bindFunction f k).frame g = s.frame g := by
    intro g hg
    rw [hframe, if_neg]
    rintro ⟨rfl, -⟩
    omega
  rw [findFunction?_eq_search, findFunction?_eq_search,
    search_eq_of_frame h (h.bindFunction f hk) _ (by rw [hself]) hother, hself, search_eq h]
  simp only [functionIn, Table.find?_insert]
  split <;> rfl

theorem findFunction?_defineFunction (h : s.WellFormed) (hf : s.Has f) {fn : Function}
    (hfn : ∀ m c, fn.body = .method m c → s.Has c) (name : String) (arity : Nat) :
    (s.defineFunction f fn).2.findFunction? f name arity =
      if (name, arity) = (fn.name, fn.arity) then some ⟨s.functions.size⟩
      else s.findFunction? f name arity := by
  have hcreate := h.createFunction hfn
  have hnew := function_createFunction s fn ⟨s.functions.size⟩
  rw [if_pos rfl] at hnew
  have hsize : s.functions.size < (s.createFunction fn).2.functions.size := by
    simp [createFunction]
  have hbind := findFunction?_bindFunction hcreate (f := f) hf (k := ⟨s.functions.size⟩) hsize name
    arity
  rw [hnew] at hbind
  refine hbind.trans ?_
  have hold : (s.createFunction fn).2.findFunction? f name arity = s.findFunction? f name arity :=
    search_congr h hcreate (functionIn name arity) fun _ _ => ⟨rfl, rfl⟩
  rw [hold]

/-- Functions are no variables. -/
theorem findSlot?_defineFunction (h : s.WellFormed) (f : FrameId) {fn : Function}
    (hfn : ∀ m c, fn.body = .method m c → s.Has c) (g : FrameId) (id : String) :
    (s.defineFunction f fn).2.findSlot? g id = s.findSlot? g id := by
  refine search_congr h (h.defineFunction f hfn) (variableIn id) fun k _ => ?_
  rw [frame_defineFunction]
  split <;> exact ⟨rfl, rfl⟩

theorem findSlot?_bindFunction (h : s.WellFormed) (f : FrameId) {k : FunctionId}
    (hk : k.index < s.functions.size) (g : FrameId) (id : String) :
    (s.bindFunction f k).findSlot? g id = s.findSlot? g id := by
  refine search_congr h (h.bindFunction f hk) (variableIn id) fun l _ => ?_
  rw [frame_bindFunction]
  split <;> exact ⟨rfl, rfl⟩

end BlockScript.Store
