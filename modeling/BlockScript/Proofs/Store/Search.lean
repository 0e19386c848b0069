import BlockScript.Store.Initial
import Mathlib.Tactic.Common

/-!
# Searching a store

Looking a name up in a frame and in those around it. In a well-formed store each frame is younger
than the one around it, so the search goes outwards frame by frame and ends.
-/

namespace BlockScript.Store

variable {β : Type} {s t : Store} {f g : FrameId} {id : String}

/-- A function of the store that goes under its own name and arity. -/
def Keyed (s : Store) (k : String × Nat) (f : FunctionId) : Prop :=
  f.index < s.functions.size ∧ k = ((s.function f).name, (s.function f).arity)

/-- What a store refers to is in it, and a frame is made after the one around it. -/
structure WellFormed (s : Store) : Prop where
  parents : ∀ f g, (s.frame f).parent = some g → g.index < f.index
  slots : ∀ f id v, (s.frame f).slots.find? id = some v → v.index < s.slots.size
  functions : ∀ f k g, (s.frame f).functions.find? k = some g → s.Keyed k g
  methods : ∀ t k g, (s.membersOf t).methods.find? k = some g → s.Keyed k g
  fields : ∀ t k v, (s.membersOf t).fields.find? k = some v → v.index < s.slots.size
  closures : ∀ f m c, (s.function f).body = .method m c → c.index < s.frames.size
  range : rangeId.index < s.functions.size

/-- A frame of the store. -/
def Has (s : Store) (f : FrameId) : Prop := f.index < s.frames.size

instance (s : Store) (f : FrameId) : Decidable (s.Has f) :=
  inferInstanceAs (Decidable (f.index < s.frames.size))

/-- The first answer of a frame and those around it, from the inside out. -/
def search (s : Store) (q : Frame → Option β) (f : FrameId) : Option β :=
  (s.chain f).findSome? fun g => q (s.frame g)

/-- What a frame itself answers when it is asked for a variable. -/
def variableIn (id : String) (fr : Frame) : Option SlotId := fr.slots.find? id

def functionIn (name : String) (arity : Nat) (fr : Frame) : Option FunctionId :=
  fr.functions.find? (name, arity)

theorem findSlot?_eq_search (s : Store) (f : FrameId) (id : String) :
    s.findSlot? f id = s.search (variableIn id) f := rfl

theorem findFunction?_eq_search (s : Store) (f : FrameId) (name : String) (arity : Nat) :
    s.findFunction? f name arity = s.search (functionIn name arity) f := rfl

/-! ## One step outwards -/

/-- The bound is not used up, since frames are younger than those around them. -/
theorem chainFrom_eq (h : s.WellFormed) {m n : Nat} (hm : f.index < m) (hn : f.index < n) :
    s.chainFrom m f = s.chainFrom n f := by
  induction m generalizing n f with
  | zero => omega
  | succ m ih =>
    cases n with
    | zero => omega
    | succ n =>
      unfold chainFrom
      cases hp : (s.frame f).parent with
      | none => rfl
      | some g =>
        have hg := h.parents f g hp
        simp only [ih (f := g) (n := n) (by omega) (by omega)]

/-- Induction from the frames around a frame to the frame itself. -/
theorem WellFormed.outwards (h : s.WellFormed) {P : FrameId → Prop}
    (step : ∀ f, (∀ p, (s.frame f).parent = some p → P p) → P f) (f : FrameId) : P f := by
  obtain ⟨i⟩ := f
  induction i using Nat.strongRecOn with
  | ind i ih => exact step ⟨i⟩ fun p hp => ih p.index (h.parents ⟨i⟩ p hp)

theorem chain_eq (h : s.WellFormed) (f : FrameId) :
    s.chain f = f :: (s.frame f).parent.elim [] s.chain := by
  rw [chain, chainFrom]
  cases hp : (s.frame f).parent with
  | none => rfl
  | some g =>
    have hg := h.parents f g hp
    simp only [Option.elim_some, chain, chainFrom_eq h hg (Nat.lt_succ_self g.index)]

theorem mem_chain (h : s.WellFormed) :
    g ∈ s.chain f ↔ g = f ∨ ∃ p, (s.frame f).parent = some p ∧ g ∈ s.chain p := by
  rw [chain_eq h, List.mem_cons]
  cases (s.frame f).parent <;> simp

/-- Frames around a frame are older. -/
theorem le_of_mem_chain (h : s.WellFormed) (hg : g ∈ s.chain f) : g.index ≤ f.index := by
  induction f using h.outwards with
  | step f ih =>
    rcases (mem_chain h).mp hg with rfl | ⟨p, hp, hg⟩
    · exact Nat.le_refl _
    · exact Nat.le_trans (ih p hp hg) (Nat.le_of_lt (h.parents f p hp))

theorem has_of_mem_chain (h : s.WellFormed) (hg : g ∈ s.chain f) (hf : t.Has f) : t.Has g :=
  Nat.lt_of_le_of_lt (le_of_mem_chain h hg) hf

/-- The chain goes on to the parent of each of its frames. -/
theorem parent_mem_chain (h : s.WellFormed) {p : FrameId} (hg : g ∈ s.chain f)
    (hp : (s.frame g).parent = some p) : p ∈ s.chain f := by
  induction f using h.outwards with
  | step f ih =>
    rcases (mem_chain h).mp hg with rfl | ⟨q, hq, hg⟩
    · exact (mem_chain h).mpr (.inr ⟨p, hp, (mem_chain h).mpr (.inl rfl)⟩)
    · exact (mem_chain h).mpr (.inr ⟨q, hq, ih q hq hg⟩)

/-- The frames around a frame are the same while they have the same parents. -/
theorem chain_congr (hs : s.WellFormed) (ht : t.WellFormed)
    (h : ∀ g : FrameId, g.index ≤ f.index → (t.frame g).parent = (s.frame g).parent) :
    t.chain f = s.chain f := by
  induction f using hs.outwards with
  | step f ih =>
    rw [chain_eq ht, chain_eq hs, h f (Nat.le_refl _)]
    cases hp : (s.frame f).parent with
    | none => rfl
    | some g =>
      have hg := hs.parents f g hp
      exact congrArg _ (ih g hp fun k hk => h k (Nat.le_trans hk (Nat.le_of_lt hg)))

theorem search_eq (h : s.WellFormed) (q : Frame → Option β) (f : FrameId) :
    s.search q f = (q (s.frame f)).or ((s.frame f).parent.bind (s.search q)) := by
  unfold search
  rw [chain_eq h, List.findSome?_cons]
  cases q (s.frame f) with
  | some b => rfl
  | none => cases (s.frame f).parent <;> rfl

/-- Stores that agree on a frame and all older ones give the same answers there. -/
theorem search_congr (hs : s.WellFormed) (ht : t.WellFormed) (q : Frame → Option β)
    (h : ∀ g : FrameId, g.index ≤ f.index → q (t.frame g) = q (s.frame g) ∧
      (t.frame g).parent = (s.frame g).parent) : t.search q f = s.search q f := by
  induction f using hs.outwards with
  | step f ih =>
    obtain ⟨hq, hp⟩ := h f (Nat.le_refl _)
    rw [search_eq ht, search_eq hs, hq, hp]
    congr 1
    cases hparent : (s.frame f).parent with
    | none => rfl
    | some g =>
      have hg := hs.parents f g hparent
      exact ih g hparent fun k hk => h k (Nat.le_trans hk (Nat.le_of_lt hg))

end BlockScript.Store
