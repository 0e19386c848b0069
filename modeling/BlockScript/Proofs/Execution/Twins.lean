import BlockScript.Proofs.Execution.Growth
import BlockScript.Proofs.Pass.Lockstep
import BlockScript.Proofs.Store.Root
import BlockScript.Proofs.Store.Upkeep

/-!
# Twin machines

Two machines have some frames in common, and besides these they see only frames that each of them
has made since, one like the other. What else is in their stores is out of their sight.
-/

namespace BlockScript

theorem rel_ite {α β : Type} {R : α → β → Prop} {p q : Prop} [Decidable p] [Decidable q]
    {a a' : α} {b b' : β} (hpq : p ↔ q) (h : p → R a b) (h' : R a' b') :
    R (if p then a else a') (if q then b else b') := by
  by_cases hp : p
  · rw [if_pos hp, if_pos (hpq.mp hp)]
    exact h hp
  · rwa [if_neg hp, if_neg (mt hpq.mpr hp)]

/-- `y` is as far beyond `r` as `x` is beyond `l`. -/
def Beside (l r x y : Nat) : Prop := l ≤ x ∧ x + r = y + l

namespace Beside

variable {l r m n x y : Nat}

theorem succ (h : Beside l r x y) : Beside l r (x + 1) (y + 1) := by
  unfold Beside at *
  omega

theorem eq_iff (h : Beside l r m n) (h' : Beside l r x y) : x = m ↔ y = n := by
  unfold Beside at *
  omega

theorem lt_iff (h : Beside l r m n) (h' : Beside l r x y) : x < m ↔ y < n := by
  unfold Beside at *
  omega

theorem not_lt (h : Beside l r x y) : ¬ x < l ∧ ¬ y < r := by
  unfold Beside at h
  omega

theorem base (l r : Nat) : Beside l r l r := ⟨Nat.le_refl l, Nat.add_comm l r⟩

end Beside

/-- Two machines at some point, and what they have in common there: the scopes and the frames of
objects that they both have, and which variables and functions of these correspond. -/
structure Twinning where
  left : Machine
  right : Machine
  scopes : FrameId → Prop
  objects : FrameId → Prop
  slot : SlotId → SlotId → Prop
  function : FunctionId → FunctionId → Prop

namespace Twinning

variable (τ : Twinning)

/-- Scopes that correspond: a common one, or two that were made since. -/
def Scopes (f g : FrameId) : Prop :=
  (f = g ∧ τ.scopes f) ∨
    Beside τ.left.store.frames.size τ.right.store.frames.size f.index g.index

def Slots (v w : SlotId) : Prop :=
  τ.slot v w ∨ Beside τ.left.store.slots.size τ.right.store.slots.size v.index w.index

def Functions (x y : FunctionId) : Prop :=
  τ.function x y ∨
    Beside τ.left.store.functions.size τ.right.store.functions.size x.index y.index

def Values (v w : Value) : Prop := v = w ∧ v.Within τ.objects

/-- Frames in which the same is known. -/
structure SameFrames (F G : Frame) : Prop where
  parent : Option.Rel τ.Scopes F.parent G.parent
  slots : ∀ id, Option.Rel τ.Slots (F.slots.find? id) (G.slots.find? id)
  functions : ∀ k, Option.Rel τ.Functions (F.functions.find? k) (G.functions.find? k)

/-- Variables with the same content. -/
def SameSlots (v w : Slot) : Prop := v = w ∧ ∀ value ∈ v.value, value.Within τ.objects

/-- Bodies that do the same, in scopes that correspond. -/
inductive SameBodies : Body → Body → Prop
  | absent : SameBodies .absent .absent
  | print : SameBodies .print .print
  | native {run : List Value → Except Breakdown Value} (h : Native.Within τ.objects run) :
      SameBodies (.native run) (.native run)
  | method {d : Method} {c c' : FrameId} (h : τ.Scopes c c') :
      SameBodies (.method d c) (.method d c')

structure SameFunctions (F G : Function) : Prop where
  name : G.name = F.name
  params : G.params = F.params
  body : τ.SameBodies F.body G.body

/-- What the machines have in common really is the same on both. -/
structure Lawful : Prop where
  scope : ∀ f, τ.scopes f → τ.left.store.Has f ∧ τ.right.store.Has f ∧
    τ.SameFrames (τ.left.store.frame f) (τ.right.store.frame f)
  object : ∀ f, τ.objects f → τ.left.store.Has f ∧ τ.right.store.Has f ∧
    ∀ id, Option.Rel τ.Slots ((τ.left.store.frame f).slots.find? id)
      ((τ.right.store.frame f).slots.find? id)
  slot : ∀ v w, τ.slot v w →
    v.index < τ.left.store.slots.size ∧ w.index < τ.right.store.slots.size
  unique : ∀ v w v' w', τ.slot v w → τ.slot v' w' → (v' = v ↔ w' = w)
  function : ∀ x y, τ.function x y →
    x.index < τ.left.store.functions.size ∧ y.index < τ.right.store.functions.size ∧
      τ.SameFunctions (τ.left.store.function x) (τ.right.store.function y)
  members : τ.right.store.members = τ.left.store.members
  catalog : τ.right.store.catalog = τ.left.store.catalog
  methods : ∀ t k x, (τ.left.store.membersOf t).methods.find? k = some x → τ.function x x

/-- What holds of the machines later on as to what they had in common: they have logged the same,
variables that correspond are the same, and variables out of sight have not changed. -/
structure Remains (a b : Machine) : Prop where
  left : τ.left.store.Keeps a.store
  right : τ.right.store.Keeps b.store
  log : ∃ added, a.log = added ++ τ.left.log ∧ b.log = added ++ τ.right.log
  slot : ∀ v w, τ.slot v w → τ.SameSlots (a.store.slot v) (b.store.slot w)
  unseen : ∀ v, v.index < τ.left.store.slots.size → (∀ w, ¬ τ.slot v w) →
    a.store.slot v = τ.left.store.slot v

/-- The machines have made the same since, and count the same calls. -/
structure Alike (a b : Machine) : Prop extends τ.Remains a b where
  depth : b.own = a.own
  frames : Beside τ.left.store.frames.size τ.right.store.frames.size a.store.frames.size
    b.store.frames.size
  slots : Beside τ.left.store.slots.size τ.right.store.slots.size a.store.slots.size
    b.store.slots.size
  functions : Beside τ.left.store.functions.size τ.right.store.functions.size
    a.store.functions.size b.store.functions.size
  newFrame : ∀ f g,
    Beside τ.left.store.frames.size τ.right.store.frames.size f.index g.index →
      τ.SameFrames (a.store.frame f) (b.store.frame g)
  newSlot : ∀ v w, Beside τ.left.store.slots.size τ.right.store.slots.size v.index w.index →
    τ.SameSlots (a.store.slot v) (b.store.slot w)
  newFunction : ∀ x y,
    Beside τ.left.store.functions.size τ.right.store.functions.size x.index y.index →
      τ.SameFunctions (a.store.function x) (b.store.function y)

/-- Besides, the machines stand in new scopes that correspond. -/
structure Twins (a b : Machine) : Prop extends τ.Alike a b where
  leftScope : a.store.Has a.scope
  rightScope : b.store.Has b.scope
  scope : Beside τ.left.store.frames.size τ.right.store.frames.size a.scope.index b.scope.index

/-! ## What corresponds -/

section

variable {τ} {a b : Machine} {f g : FrameId} {v w : SlotId} {x y : FunctionId}

theorem Lawful.slots_unique (hτ : τ.Lawful) {v' w' : SlotId} (h : τ.Slots v w)
    (h' : τ.Slots v' w') : v' = v ↔ w' = w := by
  rcases h with h | h <;> rcases h' with h' | h'
  · exact hτ.unique v w v' w' h h'
  · have hlt := hτ.slot v w h
    have hnew := h'.not_lt
    rw [← SlotId.index_inj, ← SlotId.index_inj]
    omega
  · have hlt := hτ.slot v' w' h'
    have hnew := h.not_lt
    rw [← SlotId.index_inj, ← SlotId.index_inj]
    omega
  · rw [← SlotId.index_inj, ← SlotId.index_inj]
    exact h.eq_iff h'

/-- A function is like itself if its values and its scope are seen on both. -/
theorem SameFunctions.same {F : Function}
    (hnative : ∀ run, F.body = .native run → Native.Within τ.objects run)
    (hmethod : ∀ d c, F.body = .method d c → τ.Scopes c c) : τ.SameFunctions F F := by
  refine ⟨rfl, rfl, ?_⟩
  cases hbody : F.body with
  | absent => exact .absent
  | print => exact .print
  | native run => exact .native (hnative run hbody)
  | method d c => exact .method (hmethod d c hbody)

/-- Machines are alike at the point at which they are compared. -/
theorem alike_self (hleft : τ.left.store.WellFormed ∧ τ.left.store.Tidy)
    (hright : τ.right.store.WellFormed ∧ τ.right.store.Tidy) (hdepth : τ.right.own = τ.left.own)
    (hslot : ∀ v w, τ.slot v w → τ.SameSlots (τ.left.store.slot v) (τ.right.store.slot w)) :
    τ.Alike τ.left τ.right where
  left := .refl hleft.1 hleft.2
  right := .refl hright.1 hright.2
  log := ⟨[], rfl, rfl⟩
  slot := hslot
  unseen _ _ _ := rfl
  depth := hdepth
  frames := .base _ _
  slots := .base _ _
  functions := .base _ _
  newFrame f g hfg := by
    rw [Store.frame_of_not_has hfg.not_lt.1, Store.frame_of_not_has hfg.not_lt.2]
    exact ⟨.none, fun _ => .none, fun _ => .none⟩
  newSlot v w hvw := by
    rw [Store.slot_of_not_lt hvw.not_lt.1, Store.slot_of_not_lt hvw.not_lt.2]
    exact ⟨rfl, nofun⟩
  newFunction x y hxy := by
    rw [Store.function_of_not_lt hxy.not_lt.1, Store.function_of_not_lt hxy.not_lt.2]
    exact ⟨rfl, rfl, .absent⟩

theorem Twins.leftSound (h : τ.Twins a b) : a.Sound := ⟨h.left.wellFormed, h.leftScope⟩

theorem Twins.rightSound (h : τ.Twins a b) : b.Sound := ⟨h.right.wellFormed, h.rightScope⟩

theorem Twins.sameFrames (hτ : τ.Lawful) (h : τ.Twins a b) (hfg : τ.Scopes f g) :
    τ.SameFrames (a.store.frame f) (b.store.frame g) := by
  rcases hfg with ⟨rfl, hf⟩ | hfg
  · obtain ⟨hleft, hright, hsame⟩ := hτ.scope f hf
    rwa [h.left.grows.frame f hleft nofun, h.right.grows.frame f hright nofun]
  · exact h.newFrame f g hfg

theorem Twins.sameSlots (h : τ.Twins a b) (hvw : τ.Slots v w) :
    τ.SameSlots (a.store.slot v) (b.store.slot w) :=
  hvw.elim (h.slot v w) (h.newSlot v w)

theorem Twins.sameFunctions (hτ : τ.Lawful) (h : τ.Twins a b) (hxy : τ.Functions x y) :
    τ.SameFunctions (a.store.function x) (b.store.function y) := by
  rcases hxy with hxy | hxy
  · obtain ⟨hleft, hright, hsame⟩ := hτ.function x y hxy
    rwa [h.left.functions x hleft, h.right.functions y hright]
  · exact h.newFunction x y hxy

theorem Alike.has (hτ : τ.Lawful) (h : τ.Alike a b) (hfg : τ.Scopes f g) (hf : a.store.Has f) :
    b.store.Has g := by
  rcases hfg with ⟨rfl, hcommon⟩ | hfg
  · exact h.right.grows.has (hτ.scope f hcommon).2.1
  · exact (h.frames.lt_iff hfg).mp hf

/-- The one machine stands in a frame just if the other stands in the one that corresponds. -/
theorem Twins.here (h : τ.Twins a b)
    (hfg : Beside τ.left.store.frames.size τ.right.store.frames.size f.index g.index) :
    a.scope = f ∧ a.store.Has f ↔ b.scope = g ∧ b.store.Has g := by
  rw [← FrameId.index_inj, ← FrameId.index_inj]
  exact and_congr (hfg.eq_iff h.scope) (h.frames.lt_iff hfg)

/-! ## Steps -/

theorem Alike.note (h : τ.Alike a b) (event : Event) :
    τ.Alike { a with log := event :: a.log } { b with log := event :: b.log } :=
  have hlog : ∃ added, event :: a.log = added ++ τ.left.log ∧
      event :: b.log = added ++ τ.right.log := by
    obtain ⟨added, hleft, hright⟩ := h.log
    exact ⟨event :: added, congrArg (event :: ·) hleft, congrArg (event :: ·) hright⟩
  { h with log := hlog }

theorem Twins.note (h : τ.Twins a b) (event : Event) :
    τ.Twins { a with log := event :: a.log } { b with log := event :: b.log } :=
  ⟨h.toAlike.note event, h.leftScope, h.rightScope, h.scope⟩

/-- New frames inside scopes that correspond. -/
theorem Alike.createFrame (hτ : τ.Lawful) (h : τ.Alike a b) {p q : Option FrameId}
    (hpq : Option.Rel τ.Scopes p q) (hp : ∀ f ∈ p, a.store.Has f) :
    τ.Twins { a with store := (a.store.createFrame p).2, scope := (a.store.createFrame p).1 }
      { b with store := (b.store.createFrame q).2, scope := (b.store.createFrame q).1 } :=
  { h with
    left := h.left.createFrame hp
    right := h.right.createFrame fun g hg => by
      cases hpq with
      | none => cases hg
      | some hfg =>
        cases hg
        exact h.has hτ hfg (hp _ rfl)
    leftScope := Store.has_createFrame a.store p
    rightScope := Store.has_createFrame b.store q
    scope := h.frames
    frames := by
      simpa [Store.createFrame] using h.frames.succ
    newFrame := fun f g hfg => by
      have hnew : τ.SameFrames ⟨p, .empty, .empty⟩ ⟨q, .empty, .empty⟩ :=
        ⟨hpq, fun _ => .none, fun _ => .none⟩
      dsimp only
      rw [Store.frame_createFrame, Store.frame_createFrame]
      exact rel_ite (h.frames.eq_iff hfg) (fun _ => hnew) (h.newFrame f g hfg) }

theorem Alike.enterFrame (hτ : τ.Lawful) (h : τ.Alike a b) {p q : FrameId} (hpq : τ.Scopes p q)
    (hp : a.store.Has p) : τ.Twins (a.enterFrame p) (b.enterFrame q) := by
  refine h.createFrame hτ (.some hpq) ?_
  rintro _ ⟨⟩
  exact hp

/-- Variables that are declared in the scopes of the machines correspond. -/
theorem Twins.define (hτ : τ.Lawful) (h : τ.Twins a b) {slot : Slot}
    (hslot : τ.SameSlots slot slot) :
    τ.Twins { a with store := (a.store.defineSlot a.scope slot).2 }
      { b with store := (b.store.defineSlot b.scope slot).2 } :=
  { h with
    left := h.left.defineSlot h.scope.not_lt.1 slot
    right := h.right.defineSlot h.scope.not_lt.2 slot
    slot := fun v w hvw => by
      have hold := hτ.slot v w hvw
      dsimp only
      rw [h.left.slot_defineSlot hold.1, h.right.slot_defineSlot hold.2]
      exact h.slot v w hvw
    unseen := fun v hv hunseen =>
      (h.left.slot_defineSlot hv a.scope slot).trans (h.unseen v hv hunseen)
    leftScope := (Store.grows_defineSlot ..).has h.leftScope
    rightScope := (Store.grows_defineSlot ..).has h.rightScope
    frames := by
      simpa [Store.defineSlot, Store.createSlot] using h.frames
    slots := by
      simpa [Store.defineSlot, Store.createSlot] using h.slots.succ
    newFrame := fun f g hfg => by
      have hsame := h.newFrame f g hfg
      dsimp only
      rw [Store.frame_defineSlot, Store.frame_defineSlot]
      refine rel_ite (h.here hfg) (fun _ => ?_) hsame
      refine ⟨hsame.parent, fun id => ?_, hsame.functions⟩
      rw [Table.find?_insert, Table.find?_insert]
      exact rel_ite Iff.rfl (fun _ => .some (.inr h.slots)) (hsame.slots id)
    newSlot := fun v w hvw => by
      change τ.SameSlots ((a.store.createSlot slot).2.slot v) ((b.store.createSlot slot).2.slot w)
      rw [Store.slot_createSlot, Store.slot_createSlot]
      exact rel_ite (h.slots.eq_iff hvw) (fun _ => hslot) (h.newSlot v w hvw) }

/-- An assignment to variables that correspond. -/
theorem Twins.assign (hτ : τ.Lawful) (h : τ.Twins a b) (hvw : τ.Slots v w) {value : Value}
    (hvalue : value.Within τ.objects) :
    τ.Twins { a with store := a.store.assign v value } { b with store := b.store.assign w value } :=
  have hsame : ∀ v' w', τ.Slots v' w' →
      τ.SameSlots ((a.store.assign v value).slot v') ((b.store.assign w value).slot w') := by
    intro v' w' hvw'
    have hunique := hτ.slots_unique hvw' hvw
    have hold := h.sameSlots hvw'
    rw [Store.slot_assign, Store.slot_assign]
    have hsize : v'.index < a.store.slots.size ↔ w'.index < b.store.slots.size := by
      rcases hvw' with hvw' | hvw'
      · have hlt := hτ.slot v' w' hvw'
        exact iff_of_true (Nat.lt_of_lt_of_le hlt.1 h.left.grows.slots)
          (Nat.lt_of_lt_of_le hlt.2 h.right.grows.slots)
      · exact h.slots.lt_iff hvw'
    refine rel_ite (and_congr hunique hsize) (fun _ => ?_) hold
    rw [hold.1]
    refine ⟨rfl, ?_⟩
    rintro _ ⟨⟩
    exact hvalue
  { h with
    left := h.left.assign v value
    right := h.right.assign w value
    slot := fun v' w' hvw' => hsame v' w' (.inl hvw')
    unseen := fun v' hv' hunseen => by
      have hne : v ≠ v' := by
        rintro rfl
        rcases hvw with hvw | hvw
        · exact hunseen w hvw
        · exact hvw.not_lt.1 hv'
      dsimp only
      rw [Store.slot_assign, if_neg fun hv => hne hv.1]
      exact h.unseen v' hv' hunseen
    slots := by simpa [Store.assign] using h.slots
    newSlot := fun v' w' hvw' => hsame v' w' (.inr hvw') }

/-- Back in the scopes that both had before. -/
theorem Twins.leave {c d : Machine} (h : τ.Twins a b) (h' : τ.Twins c d) (hc : c.store.Has a.scope)
    (hd : d.store.Has b.scope) : τ.Twins (a.leave c) (b.leave d) :=
  { h' with depth := h.depth, leftScope := hc, rightScope := hd, scope := h.scope }

/-- At the beginning of a call one more is counted. -/
theorem Alike.enterCall (hτ : τ.Lawful) (h : τ.Alike a b) {p q : FrameId} (hpq : τ.Scopes p q)
    (hp : a.store.Has p) : τ.Twins (Run.enterCall p a) (Run.enterCall q b) :=
  have henter := h.enterFrame hτ hpq hp
  { henter with depth := congrArg (· + 1) henter.depth }

/-! ## Definitions of methods -/

theorem Twins.createFunction (h : τ.Twins a b) {F G : Function}
    (hFG : τ.SameFunctions F G) (hF : ∀ d c, F.body = .method d c → a.store.Has c)
    (hG : ∀ d c, G.body = .method d c → b.store.Has c) :
    τ.Twins { a with store := (a.store.createFunction F).2 }
      { b with store := (b.store.createFunction G).2 } :=
  { h with
    left := h.left.createFunction hF
    right := h.right.createFunction hG
    functions := by
      simpa [Store.createFunction] using h.functions.succ
    newFunction := fun x y hxy => by
      dsimp only
      rw [Store.function_createFunction, Store.function_createFunction]
      exact rel_ite (h.functions.eq_iff hxy) (fun _ => hFG) (h.newFunction x y hxy) }

theorem Twins.bindFunction (hτ : τ.Lawful) (h : τ.Twins a b) (hxy : τ.Functions x y)
    (hx : x.index < a.store.functions.size) (hy : y.index < b.store.functions.size)
    (hleft : ∀ d c, (a.store.function x).body = .method d c → c = a.scope)
    (hright : ∀ d c, (b.store.function y).body = .method d c → c = b.scope) :
    τ.Twins { a with store := a.store.bindFunction a.scope x }
      { b with store := b.store.bindFunction b.scope y } :=
  { h with
    left := h.left.bindFunction h.scope.not_lt.1 hx hleft
    right := h.right.bindFunction h.scope.not_lt.2 hy hright
    leftScope := (Store.grows_bindFunction ..).has h.leftScope
    rightScope := (Store.grows_bindFunction ..).has h.rightScope
    frames := by
      simpa [Store.bindFunction] using h.frames
    newFrame := fun f g hfg => by
      have hsame := h.newFrame f g hfg
      have hfunctions := h.sameFunctions hτ hxy
      dsimp only
      rw [Store.frame_bindFunction, Store.frame_bindFunction]
      refine rel_ite (h.here hfg) (fun _ => ?_) hsame
      refine ⟨hsame.parent, hsame.slots, fun k => ?_⟩
      rw [Table.find?_insert, Table.find?_insert, Function.arity, Function.arity, hfunctions.name,
        hfunctions.params]
      exact rel_ite Iff.rfl (fun _ => .some hxy) (hsame.functions k) }

/-- A function that both machines define in their scopes. -/
theorem Twins.defineFunction (hτ : τ.Lawful) (h : τ.Twins a b) {F G : Function}
    (hFG : τ.SameFunctions F G) (hF : ∀ d c, F.body = .method d c → c = a.scope)
    (hG : ∀ d c, G.body = .method d c → c = b.scope) :
    τ.Twins { a with store := (a.store.defineFunction a.scope F).2 }
      { b with store := (b.store.defineFunction b.scope G).2 } := by
  have hcreate := h.createFunction hFG (fun d c hc => hF d c hc ▸ h.leftScope)
    fun d c hc => hG d c hc ▸ h.rightScope
  have hleft :=
    (Store.function_createFunction a.store F ⟨a.store.functions.size⟩).trans (if_pos rfl)
  have hright :=
    (Store.function_createFunction b.store G ⟨b.store.functions.size⟩).trans (if_pos rfl)
  refine hcreate.bindFunction hτ (.inr h.functions) ?_ ?_ ?_ ?_
  · simp [Store.createFunction]
  · simp [Store.createFunction]
  · dsimp only
    rw [hleft]
    exact hF
  · dsimp only
    rw [hright]
    exact hG

/-! ## Lookups -/

/-- A search outwards from scopes that correspond. -/
theorem Twins.search (hτ : τ.Lawful) (h : τ.Twins a b) {β : Type} {P : β → β → Prop}
    {q : Frame → Option β} (hq : ∀ F G, τ.SameFrames F G → Option.Rel P (q F) (q G))
    (hfg : τ.Scopes f g) : Option.Rel P (a.store.search q f) (b.store.search q g) := by
  induction f using h.left.wellFormed.outwards generalizing g with
  | step f ih =>
    have hsame := h.sameFrames hτ hfg
    have hown := hq _ _ hsame
    have hparent := hsame.parent
    rw [Store.search_eq h.left.wellFormed, Store.search_eq h.right.wellFormed]
    generalize q (a.store.frame f) = x, q (b.store.frame g) = y at hown ⊢
    cases hown with
    | some hxy => exact .some hxy
    | none =>
      generalize hp : (a.store.frame f).parent = p, (b.store.frame g).parent = r at hparent ⊢
      cases hparent with
      | none => exact .none
      | some hpr => exact ih _ hp hpr

theorem Twins.findSlot? (hτ : τ.Lawful) (h : τ.Twins a b) (id : String) :
    Option.Rel τ.Slots (a.store.findSlot? a.scope id) (b.store.findSlot? b.scope id) :=
  h.search hτ (q := Store.variableIn id) (fun _ _ hsame => hsame.slots id) (.inr h.scope)

theorem Twins.findFunction? (hτ : τ.Lawful) (h : τ.Twins a b) (name : String) (arity : Nat) :
    Option.Rel τ.Functions (a.store.findFunction? a.scope name arity)
      (b.store.findFunction? b.scope name arity) :=
  h.search hτ (q := Store.functionIn name arity) (fun _ _ hsame => hsame.functions (name, arity))
    (.inr h.scope)

/-- The fields of an object. -/
theorem Twins.fields (hτ : τ.Lawful) (h : τ.Twins a b) (hf : τ.objects f) (id : String) :
    Option.Rel τ.Slots ((a.store.frame f).slots.find? id) ((b.store.frame f).slots.find? id) := by
  obtain ⟨hleft, hright, hsame⟩ := hτ.object f hf
  rw [h.left.grows.frame f hleft nofun, h.right.grows.frame f hright nofun]
  exact hsame id

theorem Twins.members (hτ : τ.Lawful) (h : τ.Twins a b) : b.store.members = a.store.members :=
  (h.right.grows.members.trans hτ.members).trans h.left.grows.members.symm

theorem Twins.catalog (hτ : τ.Lawful) (h : τ.Twins a b) : b.store.catalog = a.store.catalog :=
  (h.right.grows.catalog.trans hτ.catalog).trans h.left.grows.catalog.symm

/-- A method of a type. -/
theorem Twins.method (hτ : τ.Lawful) (h : τ.Twins a b) {t : Ty} {name : String} {arguments : Nat}
    (hx : a.store.findMethod? t name arguments = some x) :
    b.store.findMethod? t name arguments = some x ∧ τ.Functions x x := by
  have hleft : a.store.membersOf t = τ.left.store.membersOf t := by
    rw [Store.membersOf, h.left.grows.members, Store.membersOf]
  have hright : b.store.membersOf t = a.store.membersOf t := by
    rw [Store.membersOf, h.members hτ, Store.membersOf]
  unfold Store.findMethod? at hx ⊢
  rw [hright]
  refine ⟨hx, .inl (hτ.methods t (name, arguments + 1) x ?_)⟩
  rwa [hleft] at hx

end

end Twinning

end BlockScript
