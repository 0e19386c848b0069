import BlockScript.Proofs.Store.Lookup
import BlockScript.Proofs.Store.Root
import BlockScript.Proofs.Store.Upkeep

/-!
# Frames as nested environments

What a forest of frames has gone through, one deed after the other, says what every name means in
every frame: the latest definition in the nearest frame outwards that has one. A definition is felt
only in the frames that lie inside its own, a variable is never mistaken for a function, and who
holds a variable keeps it when its name gets a new meaning.
-/

namespace BlockScript

/-- One change of the frames, the variables and the functions of a store, with what came back. -/
inductive Deed
  | newFrame (f : FrameId) (parent : Option FrameId)
  | newSlot (f : FrameId) (v : SlotId) (slot : Slot)
  | newFunction (x : FunctionId) (fn : Function)
  | bound (f : FrameId) (x : FunctionId) (fn : Function)
  | assigned (v : SlotId) (value : Value)

namespace Deed

/-- The variable that a deed gives a name of a frame. -/
def slotFor (name : String) (f : FrameId) : Deed → Option SlotId
  | newSlot g v slot => if g = f ∧ slot.name = name then some v else none
  | _ => none

/-- The function that a deed gives a name and an arity of a frame. -/
def functionFor (name : String) (arity : Int) (f : FrameId) : Deed → Option FunctionId
  | bound g x fn => if g = f ∧ fn.name = name ∧ (fn.arity : Int) = arity then some x else none
  | _ => none

/-- The value that a deed gives a variable. -/
def valueFor (v : SlotId) : Deed → Option Value
  | assigned w value => if w = v then some value else none
  | _ => none

end Deed

/-- What has been done, the latest first. -/
abbrev History := List Deed

namespace History

/-- The latest definition of a variable in a frame itself. -/
def slot (history : History) (name : String) (f : FrameId) : Option SlotId :=
  history.findSome? (Deed.slotFor name f)

/-- The latest definition of a function in a frame itself. -/
def function (history : History) (name : String) (arity : Int) (f : FrameId) : Option FunctionId :=
  history.findSome? (Deed.functionFor name arity f)

/-- The latest value that a variable was given after its definition. -/
def value (history : History) (v : SlotId) : Option Value := history.findSome? (Deed.valueFor v)

/-- The frames from one outwards, as they were made, to one that lies in no other. -/
inductive Path (history : History) : FrameId → List FrameId → Prop
  | outermost {f} (h : .newFrame f none ∈ history) : Path history f [f]
  | inside {f parent path} (h : .newFrame f (some parent) ∈ history)
    (hpath : Path history parent path) : Path history f (f :: path)

variable {history : History} {f : FrameId} {path : List FrameId}

theorem Path.cons (hpath : history.Path f path) (d : Deed) : Path (d :: history) f path := by
  induction hpath with
  | outermost hmem => exact .outermost (List.mem_cons_of_mem _ hmem)
  | inside hmem _ ih => exact .inside (List.mem_cons_of_mem _ hmem) ih

/-- No function has a negative arity. -/
theorem function_negSucc (name : String) (n : Nat) (f : FrameId) :
    history.function name (.negSucc n) f = none := by
  refine List.findSome?_eq_none_iff.mpr fun d _ => ?_
  cases d with
  | bound g x fn => exact if_neg fun h => by omega
  | _ => rfl

theorem slot_cons {d : Deed} {name : String} (h : d.slotFor name f = none) :
    slot (d :: history) name f = history.slot name f := by
  rw [slot, List.findSome?_cons, h, slot]

theorem function_cons {d : Deed} {name : String} {arity : Int}
    (h : d.functionFor name arity f = none) :
    function (d :: history) name arity f = history.function name arity f := by
  rw [function, List.findSome?_cons, h, function]

end History

/-- What the first frame of a path that has an answer answers. -/
def Nearest {β : Type} (path : List FrameId) (answer : FrameId → Option β) (b : β) : Prop :=
  ∃ inner f outer, path = inner ++ f :: outer ∧ answer f = some b ∧ ∀ g ∈ inner, answer g = none

namespace Store

/-- A store does what it is asked to, with frames, variables and functions that it has. -/
inductive Does (s : Store) : Deed → Store → Prop
  | newFrame {parent : Option FrameId} (hparent : ∀ p ∈ parent, s.Has p) :
    Does s (.newFrame (s.createFrame parent).1 parent) (s.createFrame parent).2
  | newSlot {f : FrameId} (hf : s.Has f) (slot : Slot) :
    Does s (.newSlot f (s.defineSlot f slot).1 slot) (s.defineSlot f slot).2
  | newFunction {fn : Function} (hfn : ∀ m c, fn.body = .method m c → s.Has c) :
    Does s (.newFunction (s.createFunction fn).1 fn) (s.createFunction fn).2
  | bound {f : FrameId} {x : FunctionId} (hf : s.Has f) (hx : x.index < s.functions.size) :
    Does s (.bound f x (s.function x)) (s.bindFunction f x)
  | assigned {v : SlotId} (hv : v.index < s.slots.size) (value : Value) :
    Does s (.assigned v value) (s.assign v value)

/-- The stores in which any such deeds have been done. -/
inductive Forest : History → Store → Prop
  | start : Forest [] .initial
  | next {history s d t} (h : Forest history s) (hd : s.Does d t) : Forest (d :: history) t

/-- What the names mean after the deeds of a history. -/
structure Environments (history : History) (s : Store) : Prop where
  /-- From each frame the way outwards ends. -/
  path : ∀ f, s.Has f → ∃ path, history.Path f path
  parent : ∀ f parent, .newFrame f parent ∈ history → s.Has f ∧ (s.frame f).parent = parent
  lookupSlot : ∀ f path, history.Path f path → ∀ name v,
    s.lookupSlot f name = .ok v ↔ Nearest path (history.slot name) v
  undefinedSlot : ∀ f path, history.Path f path → ∀ name cause, s.lookupSlot f name = .error cause ↔
    cause = .undefinedVariable name ∧ ∀ g ∈ path, history.slot name g = none
  /-- The arity is any number that a host asks for; `lookupFunction` asks for a natural one. -/
  requestFunction : ∀ f path, history.Path f path → ∀ name arity x,
    s.requestFunction f name arity = .ok x ↔ Nearest path (history.function name arity) x
  undefinedFunction : ∀ f path, history.Path f path → ∀ name arity cause,
    s.requestFunction f name arity = .error cause ↔
      cause = .undefinedFunction name arity ∧ ∀ g ∈ path, history.function name arity g = none
  /-- A variable stays as it was defined, but for its value. -/
  slot : ∀ f v slot, .newSlot f v slot ∈ history →
    s.slot v = { slot with value := (history.value v).or slot.value }
  function : ∀ x fn, .newFunction x fn ∈ history → s.function x = fn
  /-- What comes next changes the meaning of a variable only in the frames inside its own. -/
  nextSlot : ∀ d t, s.Does d t → ∀ f path, history.Path f path → ∀ name,
    (∀ g ∈ path, d.slotFor name g = none) → t.lookupSlot f name = s.lookupSlot f name
  nextFunction : ∀ d t, s.Does d t → ∀ f path, history.Path f path → ∀ name arity,
    (∀ g ∈ path, d.functionFor name arity g = none) →
      t.requestFunction f name arity = s.requestFunction f name arity
  /-- What comes next changes no variable, unless it gives that very one a value. -/
  heldSlot : ∀ d t, s.Does d t → ∀ v, v.index < s.slots.size → d.valueFor v = none →
    t.slot v = s.slot v
  heldFunction : ∀ d t, s.Does d t → ∀ x, x.index < s.functions.size → t.function x = s.function x
  /-- A definition makes a variable that nobody holds yet. -/
  fresh : ∀ f v slot t, s.Does (.newSlot f v slot) t → s.slots.size ≤ v.index

variable {history : History} {s t : Store} {d : Deed} {f g : FrameId} {name : String} {arity : Int}
  {path : List FrameId}

/-! ## One deed -/

theorem Does.wellFormed (h : s.Does d t) (hs : s.WellFormed) : t.WellFormed := by
  cases h with
  | newFrame hparent => exact hs.createFrame hparent
  | newSlot _ slot => exact hs.defineSlot _ slot
  | newFunction hfn => exact hs.createFunction hfn
  | bound _ hx => exact hs.bindFunction _ hx
  | assigned _ value => exact hs.assign _ value

/-- A frame answers with the new definition if there is one. -/
theorem Does.slots (h : s.Does d t) :
    (t.frame f).slots.find? name = (d.slotFor name f).or ((s.frame f).slots.find? name) := by
  cases h with
  | newFrame =>
    rw [frame_createFrame]
    split
    · rename_i hf
      rw [frame_of_not_has (s := s) (f := f) (by simp [Has, hf])]
      rfl
    · rfl
  | @newSlot g hg slot =>
    rw [frame_defineSlot]
    by_cases hgf : g = f
    · subst hgf
      rw [if_pos ⟨rfl, hg⟩, Table.find?_insert]
      by_cases hname : name = slot.name
      · simp [Deed.slotFor, hname, defineSlot, createSlot]
      · simp [Deed.slotFor, hname, Ne.symm hname]
    · simp [hgf, Deed.slotFor]
  | newFunction => rfl
  | bound =>
    rw [frame_bindFunction]
    split <;> rfl
  | assigned => rfl

theorem Does.functions (h : s.Does d t) {arity : Nat} :
    (t.frame f).functions.find? (name, arity) =
      (d.functionFor name arity f).or ((s.frame f).functions.find? (name, arity)) := by
  cases h with
  | newFrame =>
    rw [frame_createFrame]
    split
    · rename_i hf
      rw [frame_of_not_has (s := s) (f := f) (by simp [Has, hf])]
      rfl
    · rfl
  | newSlot =>
    rw [frame_defineSlot]
    split <;> rfl
  | newFunction => rfl
  | @bound g x hg =>
    rw [frame_bindFunction]
    by_cases hgf : g = f
    · subst hgf
      rw [if_pos ⟨rfl, hg⟩, Table.find?_insert]
      by_cases hkey : (name, arity) = ((s.function x).name, (s.function x).arity)
      · obtain ⟨rfl, rfl⟩ := Prod.mk.inj hkey
        simp [Deed.functionFor]
      · have hother : ¬ ((s.function x).name = name ∧ (s.function x).arity = arity) := by
          rintro ⟨rfl, rfl⟩
          exact hkey rfl
        simp only [Deed.functionFor, hkey, Int.natCast_inj, hother, true_and, if_false,
          Option.none_or]
    · simp [hgf, Deed.functionFor]
  | assigned => rfl

theorem Does.slot (h : s.Does d t) {v : SlotId} (hv : v.index < s.slots.size) :
    t.slot v = { s.slot v with value := (d.valueFor v).or (s.slot v).value } := by
  cases h with
  | newFrame => rfl
  | newSlot => exact (slot_createSlot ..).trans (if_neg (Nat.ne_of_lt hv))
  | newFunction => rfl
  | bound => rfl
  | assigned _ value =>
    rw [slot_assign, Deed.valueFor]
    split <;> simp_all

theorem Does.function (h : s.Does d t) {x : FunctionId} (hx : x.index < s.functions.size) :
    t.function x = s.function x := by
  cases h with
  | newFunction => exact (function_createFunction ..).trans (if_neg (Nat.ne_of_lt hx))
  | _ => rfl

theorem Does.grows (h : s.Does d t) : ∃ own, Grows own s t := by
  cases h with
  | newFrame => exact ⟨none, grows_createFrame s _⟩
  | newSlot _ slot => exact ⟨_, grows_defineSlot s _ slot⟩
  | newFunction =>
    exact ⟨none, refines_createFunction s _, Nat.le_refl _, fun _ _ _ => rfl, fun _ _ => rfl⟩
  | bound => exact ⟨_, grows_bindFunction s _ _⟩
  | assigned _ value => exact ⟨none, grows_assign s _ value⟩

theorem Does.newFrame_of_has (h : s.Does d t) (hf : t.Has f) :
    s.Has f ∨ ∃ parent, d = .newFrame f parent := by
  cases h with
  | @newFrame parent =>
    have hsize : f.index < s.frames.size + 1 := by simpa [Has, createFrame] using hf
    rcases Nat.lt_succ_iff_lt_or_eq.mp hsize with hold | hnew
    · exact .inl hold
    · refine .inr ⟨parent, ?_⟩
      obtain rfl : f = ⟨s.frames.size⟩ := FrameId.index_inj.mp hnew
      rfl
  | newSlot => exact .inl (by simpa [Has, defineSlot, createSlot] using hf)
  | bound => exact .inl (by simpa [Has, bindFunction] using hf)
  | _ => exact .inl hf

theorem Does.made_frame {parent : Option FrameId} (h : s.Does (.newFrame f parent) t) :
    t.Has f ∧ (t.frame f).parent = parent := by
  cases h
  refine ⟨by simp [Has, createFrame], ?_⟩
  rw [frame_createFrame]
  exact congrArg Frame.parent (if_pos rfl)

theorem Does.made_slot {v : SlotId} {slot : Slot} (h : s.Does (.newSlot f v slot) t) :
    s.slots.size = v.index ∧ v.index < t.slots.size ∧ t.slot v = slot := by
  cases h
  exact ⟨rfl, by simp [defineSlot, createSlot], (slot_createSlot s slot _).trans (if_pos rfl)⟩

theorem Does.made_function {x : FunctionId} {fn : Function} (h : s.Does (.newFunction x fn) t) :
    x.index < t.functions.size ∧ t.function x = fn := by
  cases h
  exact ⟨by simp [createFunction], (function_createFunction s fn _).trans (if_pos rfl)⟩

theorem Does.valueFor_eq_none (h : s.Does d t) {v : SlotId} (hv : s.slots.size ≤ v.index) :
    d.valueFor v = none := by
  cases h with
  | assigned hw =>
    refine if_neg ?_
    rintro rfl
    exact Nat.not_lt.mpr hv hw
  | _ => rfl

/-! ## All deeds -/

theorem Forest.wellFormed (h : Forest history s) : s.WellFormed := by
  induction h with
  | start => exact wellFormed_initial
  | next _ hd ih => exact hd.wellFormed ih

theorem frame_initial (f : FrameId) : initial.frame f = ⟨none, .empty, .empty⟩ :=
  frame_of_not_has (Nat.not_lt_zero f.index)

theorem Forest.slots (h : Forest history s) :
    (s.frame f).slots.find? name = history.slot name f := by
  induction h with
  | start =>
    rw [frame_initial]
    rfl
  | next _ hd ih =>
    rw [hd.slots, ih, History.slot, History.slot, List.findSome?_cons]
    split <;> simp_all

theorem Forest.functions (h : Forest history s) {arity : Nat} :
    (s.frame f).functions.find? (name, arity) = history.function name arity f := by
  induction h with
  | start =>
    rw [frame_initial]
    rfl
  | next _ hd ih =>
    rw [hd.functions, ih, History.function, History.function, List.findSome?_cons]
    split <;> simp_all

/-- A frame keeps its place. -/
theorem Forest.parent {parent : Option FrameId} (h : Forest history s) :
    .newFrame f parent ∈ history → s.Has f ∧ (s.frame f).parent = parent := by
  induction h with
  | start => exact fun hmem => absurd hmem List.not_mem_nil
  | next h hd ih =>
    intro hmem
    rcases List.mem_cons.mp hmem with rfl | hmem
    · exact hd.made_frame
    · obtain ⟨hf, hparent⟩ := ih hmem
      obtain ⟨own, hgrows⟩ := hd.grows
      exact ⟨hgrows.has hf, (hgrows.parent f hf).trans hparent⟩

theorem Forest.newFrame_mem (h : Forest history s) (hf : s.Has f) :
    ∃ parent, .newFrame f parent ∈ history := by
  induction h with
  | start => exact absurd hf (Nat.not_lt_zero _)
  | next _ hd ih =>
    rcases hd.newFrame_of_has hf with hf | ⟨parent, rfl⟩
    · obtain ⟨parent, hmem⟩ := ih hf
      exact ⟨parent, List.mem_cons_of_mem _ hmem⟩
    · exact ⟨parent, List.mem_cons_self⟩

/-- No value comes before its variable. -/
theorem Forest.value_eq_none (h : Forest history s) {v : SlotId} (hv : s.slots.size ≤ v.index) :
    history.value v = none := by
  induction h with
  | start => rfl
  | next _ hd ih =>
    obtain ⟨own, hgrows⟩ := hd.grows
    have hold := Nat.le_trans hgrows.slots hv
    rw [History.value, List.findSome?_cons, hd.valueFor_eq_none hold]
    exact ih hold

theorem Forest.slot {v : SlotId} {slot : Slot} (h : Forest history s) :
    .newSlot f v slot ∈ history → v.index < s.slots.size ∧
      s.slot v = { slot with value := (history.value v).or slot.value } := by
  induction h with
  | start => exact fun hmem => absurd hmem List.not_mem_nil
  | next h hd ih =>
    intro hmem
    rcases List.mem_cons.mp hmem with rfl | hmem
    · obtain ⟨hsize, hv, hslot⟩ := hd.made_slot
      refine ⟨hv, hslot.trans ?_⟩
      rw [History.value, List.findSome?_cons, hd.valueFor_eq_none (Nat.le_of_eq hsize)]
      change slot = { slot with value := (History.value _ v).or slot.value }
      rw [h.value_eq_none (Nat.le_of_eq hsize), Option.none_or]
    · obtain ⟨hv, hslot⟩ := ih hmem
      obtain ⟨own, hgrows⟩ := hd.grows
      refine ⟨Nat.lt_of_lt_of_le hv hgrows.slots, ?_⟩
      rw [hd.slot hv, hslot, History.value, History.value, List.findSome?_cons]
      split <;> simp_all

theorem Forest.function {x : FunctionId} {fn : Function} (h : Forest history s) :
    .newFunction x fn ∈ history → x.index < s.functions.size ∧ s.function x = fn := by
  induction h with
  | start => exact fun hmem => absurd hmem List.not_mem_nil
  | next h hd ih =>
    intro hmem
    rcases List.mem_cons.mp hmem with rfl | hmem
    · exact hd.made_function
    · obtain ⟨hx, hfn⟩ := ih hmem
      obtain ⟨own, hgrows⟩ := hd.grows
      exact ⟨Nat.lt_of_lt_of_le hx hgrows.functions, (hd.function hx).trans hfn⟩

/-! ## The way outwards -/

theorem Forest.exists_path (h : Forest history s) (hf : s.Has f) :
    ∃ path, history.Path f path := by
  induction f using h.wellFormed.outwards with
  | step f ih =>
    obtain ⟨parent, hmem⟩ := h.newFrame_mem hf
    cases parent with
    | none => exact ⟨[f], .outermost hmem⟩
    | some p =>
      have hp := (h.parent hmem).2
      have hlt := h.wellFormed.parents f p hp
      obtain ⟨path, hpath⟩ := ih p hp (Nat.lt_trans hlt hf)
      exact ⟨f :: path, .inside hmem hpath⟩

theorem Forest.chain (h : Forest history s) (hpath : history.Path f path) : s.chain f = path := by
  induction hpath with
  | outermost hmem => rw [chain_eq h.wellFormed, (h.parent hmem).2, Option.elim_none]
  | inside hmem _ ih => rw [chain_eq h.wellFormed, (h.parent hmem).2, Option.elim_some, ih]

theorem Forest.findSlot? (h : Forest history s) (hpath : history.Path f path) (name : String) :
    s.findSlot? f name = path.findSome? (history.slot name) := by
  rw [Store.findSlot?, h.chain hpath]
  simp only [h.slots]

theorem Forest.findFunction? (h : Forest history s) (hpath : history.Path f path) (name : String)
    (arity : Nat) :
    s.findFunction? f name arity = path.findSome? (history.function name arity) := by
  rw [Store.findFunction?, h.chain hpath]
  simp only [h.functions]

/-! ## The environments -/

theorem nearest_iff {β : Type} {answer : FrameId → Option β} {b : β} :
    Nearest path answer b ↔ path.findSome? answer = some b :=
  List.findSome?_eq_some_iff.symm

theorem Forest.lookupSlot (h : Forest history s) (hpath : history.Path f path) (name : String) :
    s.lookupSlot f name = match path.findSome? (history.slot name) with
      | some v => .ok v
      | none => .error (.undefinedVariable name) := by
  have hfind := h.findSlot? hpath name
  unfold Store.lookupSlot
  cases hname : path.findSome? (history.slot name) <;> simp [hfind, hname]

theorem Forest.requestFunction (h : Forest history s) (hpath : history.Path f path)
    (name : String) (arity : Int) :
    s.requestFunction f name arity = match path.findSome? (history.function name arity) with
      | some x => .ok x
      | none => .error (.undefinedFunction name arity) := by
  cases arity with
  | ofNat n =>
    have hfind := h.findFunction? hpath name n
    unfold Store.requestFunction Store.lookupFunction
    cases hname : path.findSome? (history.function name n) <;> simp [hfind, hname]
  | negSucc n =>
    rw [List.findSome?_eq_none_iff.mpr fun g _ => History.function_negSucc name n g]
    rfl

theorem findSome?_congr {β : Type} {q r : FrameId → Option β} (h : ∀ g ∈ path, q g = r g) :
    path.findSome? q = path.findSome? r := by
  induction path with
  | nil => rfl
  | cons g path ih =>
    obtain ⟨hg, hpath⟩ := List.forall_mem_cons.mp h
    rw [List.findSome?_cons, List.findSome?_cons, hg, ih hpath]

/-- Names mean in a frame what was defined last in the nearest frame outwards that knows them. -/
theorem Forest.environments (h : Forest history s) : Environments history s where
  path _ hf := h.exists_path hf
  parent _ _ hmem := h.parent hmem
  lookupSlot f path hpath name v := by
    rw [nearest_iff, h.lookupSlot hpath]
    cases path.findSome? (history.slot name) <;> simp
  undefinedSlot f path hpath name cause := by
    rw [h.lookupSlot hpath, ← List.findSome?_eq_none_iff]
    cases path.findSome? (history.slot name) <;> simp [eq_comm]
  requestFunction f path hpath name arity x := by
    rw [nearest_iff, h.requestFunction hpath]
    cases path.findSome? (history.function name arity) <;> simp
  undefinedFunction f path hpath name arity cause := by
    rw [h.requestFunction hpath, ← List.findSome?_eq_none_iff]
    cases path.findSome? (history.function name arity) <;> simp [eq_comm]
  slot _ _ _ hmem := (h.slot hmem).2
  function _ _ hmem := (h.function hmem).2
  nextSlot d t hd f path hpath name hnone := by
    rw [(h.next hd).lookupSlot (hpath.cons d), h.lookupSlot hpath,
      findSome?_congr fun g hg => History.slot_cons (hnone g hg)]
  nextFunction d t hd f path hpath name arity hnone := by
    rw [(h.next hd).requestFunction (hpath.cons d), h.requestFunction hpath,
      findSome?_congr fun g hg => History.function_cons (hnone g hg)]
  heldSlot d t hd v hv hnone := by rw [hd.slot hv, hnone, Option.none_or]
  heldFunction _ _ hd _ hx := hd.function hx
  fresh _ _ _ _ hd := Nat.le_of_eq hd.made_slot.1

/-- Two frames inside a third one, each with a variable of one name. The outer one's gets a new
meaning, and whoever holds the old variable gives it a value. -/
theorem environments_siblings : ∃ history s, Forest history s ∧
    s.lookupSlot ⟨1⟩ "x" = .ok ⟨1⟩ ∧ s.lookupSlot ⟨2⟩ "x" = .ok ⟨2⟩ ∧
      s.lookupSlot ⟨2⟩ "y" = .error (.undefinedVariable "y") ∧
        s.slot ⟨0⟩ = ⟨"x", .integer, some (.integer 7)⟩ := by
  let history : History := [.assigned ⟨0⟩ (.integer 7), .newSlot ⟨0⟩ ⟨2⟩ ⟨"x", .string, none⟩,
    .newSlot ⟨1⟩ ⟨1⟩ ⟨"x", .boolean, none⟩, .newFrame ⟨2⟩ (some ⟨0⟩), .newFrame ⟨1⟩ (some ⟨0⟩),
    .newSlot ⟨0⟩ ⟨0⟩ ⟨"x", .integer, none⟩, .newFrame ⟨0⟩ none]
  have hforest : ∃ s, Forest history s := by
    refine ⟨_, .next (.next (.next (.next (.next (.next (.next .start (.newFrame ?_))
      (.newSlot ?_ _)) (.newFrame ?_)) (.newFrame ?_)) (.newSlot ?_ _)) (.newSlot ?_ _))
      (.assigned ?_ _)⟩
    all_goals decide +kernel
  obtain ⟨s, h⟩ := hforest
  have houter : history.Path ⟨0⟩ [⟨0⟩] := .outermost (by simp [history])
  have hfirst : history.Path ⟨1⟩ [⟨1⟩, ⟨0⟩] := .inside (by simp [history]) houter
  have hsecond : history.Path ⟨2⟩ [⟨2⟩, ⟨0⟩] := .inside (by simp [history]) houter
  have he := h.environments
  refine ⟨history, s, h, ?_, ?_, ?_, ?_⟩
  · exact (he.lookupSlot _ _ hfirst "x" ⟨1⟩).mpr ⟨[], ⟨1⟩, [⟨0⟩], rfl, by decide +kernel, by simp⟩
  · exact (he.lookupSlot _ _ hsecond "x" ⟨2⟩).mpr
      ⟨[⟨2⟩], ⟨0⟩, [], rfl, by decide +kernel, by decide +kernel⟩
  · exact (he.undefinedSlot _ _ hsecond "y" _).mpr ⟨rfl, by decide +kernel⟩
  · exact he.slot ⟨0⟩ ⟨0⟩ ⟨"x", .integer, none⟩ (by simp [history])

end Store

end BlockScript
