import BlockScript.Proofs.Store.Lookup
import Mathlib.Data.List.Nodup

/-!
# Renumbered functions

Functions that are defined in another order get other numbers. Where each of them has a name and an
arity of its own, all frames know the same under all names.
-/

namespace BlockScript

/-- The name and the arity that a function is looked up by. -/
def Function.key (fn : Function) : String × Nat := (fn.name, fn.arity)

/-- The frames are the same but for the numbers that functions have, which are those of `left` in
the one and those of `right` in the other. -/
structure Frame.Renumbers (left right : FunctionId → Function) (F G : Frame) : Prop where
  parent : G.parent = F.parent
  slots : G.slots = F.slots
  functions : ∀ k, (G.functions.find? k).map right = (F.functions.find? k).map left

namespace Store

variable {s t : Store} {f g : FrameId} {fn : Function} {fns fns' : List Function}

/-- The stores are the same but for the numbers of their functions. -/
structure Renumbers (s t : Store) : Prop where
  frames : t.frames.size = s.frames.size
  frame : ∀ f, Frame.Renumbers s.function t.function (s.frame f) (t.frame f)
  slots : t.slots = s.slots
  functions : t.functions.toList.Perm s.functions.toList
  members : t.members = s.members
  methods : ∀ type k x, (s.membersOf type).methods.find? k = some x → t.function x = s.function x
  catalog : t.catalog = s.catalog
  customTypes : t.customTypes = s.customTypes

namespace Renumbers

theorem refl (s : Store) : s.Renumbers s :=
  ⟨rfl, fun _ => ⟨rfl, rfl, fun _ => rfl⟩, rfl, .refl _, rfl, fun _ _ _ _ => rfl, rfl, rfl⟩

theorem has (h : s.Renumbers t) : t.Has f ↔ s.Has f := by
  rw [Has, Has, h.frames]

/-! ## Changes -/

theorem createFrame (h : s.Renumbers t) (parent : Option FrameId) :
    (s.createFrame parent).2.Renumbers (t.createFrame parent).2 :=
  { h with
    frames := by simp [Store.createFrame, h.frames]
    frame := fun g => by
      rw [frame_createFrame, frame_createFrame, h.frames]
      split
      · exact ⟨rfl, rfl, fun _ => rfl⟩
      · exact h.frame g }

theorem defineSlot (h : s.Renumbers t) (f : FrameId) (slot : Slot) :
    (s.defineSlot f slot).2.Renumbers (t.defineSlot f slot).2 :=
  { h with
    frames := by simp [Store.defineSlot, Store.createSlot, h.frames]
    frame := fun g => by
      have hframe := h.frame g
      rw [frame_defineSlot, frame_defineSlot, h.slots]
      simp only [h.has]
      split
      · exact ⟨hframe.parent, congrArg (·.insert slot.name ⟨s.slots.size⟩) hframe.slots,
          hframe.functions⟩
      · exact hframe
    slots := congrArg (·.push slot) h.slots }

theorem assign (h : s.Renumbers t) (v : SlotId) (value : Value) :
    (s.assign v value).Renumbers (t.assign v value) :=
  { h with
    slots := congrArg
      (fun slots => slots.modify v.index fun slot => { slot with value := some value }) h.slots }

/-! ## Lookups -/

theorem chain (h : s.Renumbers t) (hs : s.WellFormed) (ht : t.WellFormed) (f : FrameId) :
    t.chain f = s.chain f :=
  chain_congr hs ht fun g _ => (h.frame g).parent

theorem findSlot? (h : s.Renumbers t) (hs : s.WellFormed) (ht : t.WellFormed) (f : FrameId)
    (id : String) : t.findSlot? f id = s.findSlot? f id :=
  search_congr hs ht (variableIn id) fun g _ =>
    ⟨congrArg (·.find? id) (h.frame g).slots, (h.frame g).parent⟩

theorem findFunction? (h : s.Renumbers t) (hs : s.WellFormed) (ht : t.WellFormed) (f : FrameId)
    (name : String) (arity : Nat) :
    (t.findFunction? f name arity).map t.function =
      (s.findFunction? f name arity).map s.function := by
  rw [Store.findFunction?, Store.findFunction?, h.chain hs ht, List.map_findSome?,
    List.map_findSome?]
  exact congrArg (fun q => List.findSome? q (s.chain f))
    (funext fun g => (h.frame g).functions (name, arity))

end Renumbers

/-! ## Definitions -/

/-- Functions that are defined in a frame, one after the other. -/
def defineAll (s : Store) (f : FrameId) (fns : List Function) : Store :=
  fns.foldl (fun s fn => (s.defineFunction f fn).2) s

/-- The function that a frame itself knows under the key. -/
def functionIn? (s : Store) (f : FrameId) (k : String × Nat) : Option Function :=
  ((s.frame f).functions.find? k).map s.function

theorem functionIn?_defineFunction (hs : s.WellFormed) (hf : s.Has f) (fn : Function)
    (g : FrameId) (k : String × Nat) : (s.defineFunction f fn).2.functionIn? g k =
      if f = g then (if fn.key = k then some fn else none).or (s.functionIn? g k)
      else s.functionIn? g k := by
  have hnew := (function_defineFunction s f fn ⟨s.functions.size⟩).trans (if_pos rfl)
  have hold : ((s.frame g).functions.find? k).map (s.defineFunction f fn).2.function =
      s.functionIn? g k := by
    refine Option.map_congr fun x hx => ?_
    rw [function_defineFunction, if_neg (Nat.ne_of_lt (hs.functions g k x hx).1)]
  unfold functionIn? at hold ⊢
  rw [frame_defineFunction]
  by_cases hfg : f = g
  · subst hfg
    rw [if_pos ⟨rfl, hf⟩, if_pos rfl, Table.find?_insert, ← Function.key]
    by_cases hk : k = fn.key
    · rw [if_pos hk, if_pos hk.symm, Option.map_some, hnew, Option.some_or]
    · rw [if_neg hk, if_neg (Ne.symm hk), hold, Option.none_or]
  · rw [if_neg (fun h => hfg h.1), if_neg hfg, hold]

theorem functionIn?_defineAll (hs : s.WellFormed) (hf : s.Has f)
    (hfns : ∀ fn ∈ fns, ∀ m c, fn.body = .method m c → s.Has c) (g : FrameId)
    (k : String × Nat) : (s.defineAll f fns).functionIn? g k =
      if f = g then (fns.reverse.find? fun fn => fn.key = k).or (s.functionIn? g k)
      else s.functionIn? g k := by
  induction fns generalizing s with
  | nil => exact (ite_self _).symm
  | cons fn fns ih =>
    rw [List.forall_mem_cons] at hfns
    have hgrows := grows_defineFunction s f fn
    refine (ih (hs.defineFunction f hfns.1) (hgrows.has hf) ?_).trans ?_
    · exact fun d hd m c hc => hgrows.has (hfns.2 d hd m c hc)
    rw [functionIn?_defineFunction hs hf, List.reverse_cons, List.find?_append,
      List.find?_singleton]
    split
    · simp only [Option.or_assoc, decide_eq_true_eq]
    · rfl

/-- Nothing but frames and functions changes. -/
theorem defineAll_eq (s : Store) (f : FrameId) (fns : List Function) : s.defineAll f fns =
    { s with
      frames := (s.defineAll f fns).frames
      functions := (s.defineAll f fns).functions } := by
  induction fns generalizing s with
  | nil => rfl
  | cons fn fns ih => exact ih (s.defineFunction f fn).2

theorem functions_defineAll (s : Store) (f : FrameId) (fns : List Function) :
    (s.defineAll f fns).functions.toList = s.functions.toList ++ fns := by
  induction fns generalizing s with
  | nil => exact (List.append_nil _).symm
  | cons fn fns ih =>
    refine (ih (s.defineFunction f fn).2).trans ?_
    simp [defineFunction, createFunction, bindFunction]

theorem function_defineAll {x : FunctionId} (hx : x.index < s.functions.size) (f : FrameId)
    (fns : List Function) : (s.defineAll f fns).function x = s.function x := by
  induction fns generalizing s with
  | nil => rfl
  | cons fn fns ih =>
    have hsize := (grows_defineFunction s f fn).functions
    refine (ih (Nat.lt_of_lt_of_le hx hsize)).trans ?_
    rw [function_defineFunction, if_neg (Nat.ne_of_lt hx)]

theorem frame_defineAll (s : Store) (f : FrameId) (fns : List Function) (g : FrameId) :
    ((s.defineAll f fns).frame g).parent = (s.frame g).parent ∧
      ((s.defineAll f fns).frame g).slots = (s.frame g).slots := by
  induction fns generalizing s with
  | nil => exact ⟨rfl, rfl⟩
  | cons fn fns ih =>
    obtain ⟨hparent, hslots⟩ := ih (s.defineFunction f fn).2
    rw [frame_defineFunction] at hparent hslots
    refine ⟨hparent.trans ?_, hslots.trans ?_⟩ <;> split <;> rfl

theorem frames_defineAll (s : Store) (f : FrameId) (fns : List Function) :
    (s.defineAll f fns).frames.size = s.frames.size := by
  induction fns generalizing s with
  | nil => rfl
  | cons fn fns ih =>
    refine (ih (s.defineFunction f fn).2).trans ?_
    simp [defineFunction, createFunction, bindFunction]

/-! ## Definitions in another order -/

theorem find?_eq_of_perm {α : Type} {p : α → Bool} {l l' : List α} (h : l'.Perm l)
    (hunique : ∀ a ∈ l, ∀ b ∈ l, p a → p b → b = a) : l'.find? p = l.find? p := by
  cases hl : l.find? p with
  | none =>
    rw [List.find?_eq_none] at hl ⊢
    exact fun a ha => hl a (h.subset ha)
  | some a =>
    have ha := List.mem_of_find?_eq_some hl
    cases hl' : l'.find? p with
    | none => exact absurd (List.find?_some hl) (List.find?_eq_none.mp hl' a (h.symm.subset ha))
    | some b =>
      have hb := h.subset (List.mem_of_find?_eq_some hl')
      rw [hunique a ha b hb (List.find?_some hl) (List.find?_some hl')]

/-- In whatever order functions with keys of their own are defined, only their numbers differ. -/
theorem renumbers_defineAll (hs : s.WellFormed) (hf : s.Has f)
    (hfns : ∀ fn ∈ fns, ∀ m c, fn.body = .method m c → s.Has c) (hperm : fns'.Perm fns)
    (hkeys : (fns.map Function.key).Nodup) :
    (s.defineAll f fns).Renumbers (s.defineAll f fns') := by
  have hfind (k : String × Nat) : (fns'.reverse.find? fun fn => fn.key = k) =
      fns.reverse.find? fun fn => fn.key = k := by
    have hreversed := ((List.reverse_perm _).trans hperm).trans (List.reverse_perm _).symm
    refine find?_eq_of_perm hreversed ?_
    intro a ha b hb hka hkb
    rw [List.mem_reverse] at ha hb
    exact List.inj_on_of_nodup_map hkeys hb ha
      ((of_decide_eq_true hkb).trans (of_decide_eq_true hka).symm)
  have hframe (g : FrameId) := frame_defineAll s f fns g
  have hframe' (g : FrameId) := frame_defineAll s f fns' g
  have hleft := defineAll_eq s f fns
  have hright := defineAll_eq s f fns'
  exact {
    frames := by rw [frames_defineAll, frames_defineAll]
    frame := fun g => by
      refine ⟨(hframe' g).1.trans (hframe g).1.symm, (hframe' g).2.trans (hframe g).2.symm,
        fun k => ?_⟩
      have hfunction := functionIn?_defineAll hs hf hfns g k
      rw [← hfind] at hfunction
      refine Eq.trans ?_ hfunction.symm
      exact functionIn?_defineAll hs hf (fun fn hfn => hfns fn (hperm.subset hfn)) g k
    slots := (congrArg Store.slots hright).trans (congrArg Store.slots hleft).symm
    functions := by
      rw [functions_defineAll, functions_defineAll]
      exact hperm.append_left _
    members := (congrArg Store.members hright).trans (congrArg Store.members hleft).symm
    methods := fun type k x hx => by
      rw [membersOf, congrArg Store.members hleft] at hx
      have hsize := (hs.methods type k x hx).1
      rw [function_defineAll hsize, function_defineAll hsize]
    catalog := (congrArg Store.catalog hright).trans (congrArg Store.catalog hleft).symm
    customTypes :=
      (congrArg Store.customTypes hright).trans (congrArg Store.customTypes hleft).symm }

end Store

end BlockScript
