import BlockScript.Proofs.Execution.Assignments
import BlockScript.Proofs.Execution.Reachable

/-!
# Declarations are local to their block

What a statement declares is in the frame that it stands in, and only a declaration that stands
there itself adds to that frame. The branches of a conditional and the rounds of a loop have frames
of their own, new ones each time, so nothing that is declared there is seen outside or in the next
round, and what it has hidden is found again. Only programs declare things while they run, not the
functions of a host (see `Body.native`).
-/

namespace BlockScript

open Attempt Pass Run

/-! ## Stores -/

/-- Of what the store held, only the values of variables are different, and the frame `own`. -/
structure Store.Revalues (own : Option FrameId) (s t : Store) : Prop where
  frames : s.frames.size ≤ t.frames.size
  frame : ∀ f, s.Has f → own ≠ some f → t.frame f = s.frame f
  slots : s.slots.size ≤ t.slots.size
  slot : ∀ v : SlotId, v.index < s.slots.size →
    (t.slot v).name = (s.slot v).name ∧ (t.slot v).type = (s.slot v).type
  functions : s.functions.size ≤ t.functions.size
  function : ∀ x : FunctionId, x.index < s.functions.size → t.function x = s.function x
  members : t.members = s.members
  catalog : t.catalog = s.catalog

/-- As `Revalues`; moreover the frame `f` has a new variable, which now has its name there. -/
structure Store.Declares (f : FrameId) (name : String) (s t : Store) : Prop
    extends Store.Revalues (some f) s t where
  declared : ∃ v : SlotId, s.slots.size ≤ v.index ∧ v.index < t.slots.size ∧
    (t.slot v).name = name ∧
    t.frame f = { s.frame f with slots := (s.frame f).slots.insert name v }

namespace Store

variable {P : SlotId → Value → Prop} {own : Option FrameId} {s t u : Store}

theorem Revalues.of_grows (hgrows : s.Grows own t) (halters : s.Alters P t) :
    s.Revalues own t where
  frames := hgrows.frames
  frame := hgrows.frame
  slots := halters.slots
  slot v hv := by
    rcases halters.slot v hv with hsame | ⟨w, -, hw⟩
    · rw [hsame]
      exact ⟨rfl, rfl⟩
    · rw [hw]
      exact ⟨rfl, rfl⟩
  functions := halters.functions
  function := halters.function
  members := hgrows.members
  catalog := hgrows.catalog

theorem Revalues.refl (own : Option FrameId) (s : Store) : s.Revalues own s :=
  .of_grows (.refl own s) (.refl (fun _ _ => False) s)

theorem Revalues.trans (hst : s.Revalues own t) (htu : t.Revalues own u) : s.Revalues own u where
  frames := Nat.le_trans hst.frames htu.frames
  frame f hf hown :=
    (htu.frame f (Nat.lt_of_lt_of_le hf hst.frames) hown).trans (hst.frame f hf hown)
  slots := Nat.le_trans hst.slots htu.slots
  slot v hv := by
    have hlast := htu.slot v (Nat.lt_of_lt_of_le hv hst.slots)
    have hfirst := hst.slot v hv
    exact ⟨hlast.1.trans hfirst.1, hlast.2.trans hfirst.2⟩
  functions := Nat.le_trans hst.functions htu.functions
  function x hx :=
    (htu.function x (Nat.lt_of_lt_of_le hx hst.functions)).trans (hst.function x hx)
  members := htu.members.trans hst.members
  catalog := htu.catalog.trans hst.catalog

theorem Revalues.of_none (h : s.Revalues none t) (own : Option FrameId) : s.Revalues own t :=
  { h with frame := fun f hf _ => h.frame f hf nofun }

end Store

/-! ## Machines -/

/-- The variable that each round of a loop has of its own. -/
def Stmt.loopVariable? : Stmt → Option String
  | .forLoop _ name _ _ => some name
  | _ => none

/-- A loop that is going on. -/
def Task.isLoop : Task → Bool
  | .rounds .. | .turns .. => true
  | _ => false

/-- A statement goes on to a loop, and a loop to what is left of it after a round. -/
abbrev Activity.Goes : Activity → Activity → Prop :=
  Relation.ReflTransGen fun a b => a.Begins b ∧ b.task.isLoop = true

/-- The statement `s`, begun on `m`, comes to a body on `n`: to a branch, or to that of a loop in
its first round or any later one. -/
def Stmt.Enters (k : Nat) (s : Stmt) (m n : Machine) : Prop :=
  ∃ (a : Activity) (ss : List Stmt), Activity.Goes ⟨k, .statement s, m⟩ a ∧
    a.Begins ⟨k, .statements ss, n⟩

namespace Machine

variable {m n o : Machine} {k : Nat} {s : Stmt}

/-- The machine is in the same scope, frames hold what they held, and in each of them names stand
for what they stood for. -/
structure KeepsNames (m n : Machine) : Prop where
  scope : n.scope = m.scope
  store : m.store.Revalues none n.store
  context : ∀ f, m.store.Has f → n.store.context f = m.store.context f

/-- The machine is in the same scope, which has a new variable. -/
structure Declares (name : String) (m n : Machine) : Prop where
  scope : n.scope = m.scope
  store : m.store.Declares m.scope name n.store

/-- The machine is in a new frame inside the scope of `m`, which holds nothing, or a new variable of
the loop. All else is as it was for `m`. -/
structure BeginsBody (loopVariable : Option String) (m n : Machine) : Prop where
  scope : m.store.frames.size ≤ n.scope.index
  parent : (n.store.frame n.scope).parent = some m.scope
  store : m.store.Revalues none n.store
  functions : ∀ key, (n.store.frame n.scope).functions.find? key = none
  slots : ∀ x, loopVariable ≠ some x → (n.store.frame n.scope).slots.find? x = none
  context : loopVariable = none → n.context = m.context
  loop : ∀ x, loopVariable = some x → ∃ v : SlotId, m.store.slots.size ≤ v.index ∧
    n.context = m.context.declare x v ∧ (n.store.slot v).type = .integer

/-- What each part of a program does to the names of a machine that begins it, however it ends. -/
structure IsBlockLocal (m : Machine) : Prop where
  expression : ∀ k e, Ends (expr (invoke k) e) m (fun _ n => m.KeepsNames n) fun _ n =>
    m.KeepsNames n
  statement : ∀ k s, s.declares = false →
    Ends (stmt (invoke k) k s) m (fun _ n => m.KeepsNames n) fun _ n => m.KeepsNames n
  declaration : ∀ k b, Ends (stmt (invoke k) k (.declare b)) m (fun _ n => m.Declares b.name n)
    fun _ n => m.KeepsNames n
  field : ∀ k b, Ends (makeField k b) m (fun _ n => m.Declares b.name n) fun _ n => m.KeepsNames n
  bodies : ∀ k (s : Stmt) n, s.Enters k m n → m.BeginsBody s.loopVariable? n

theorem KeepsNames.of_evolves {P : SlotId → Value → Prop} (hm : m.Sound) (hmn : m.Evolves false n)
    (halters : m.store.Alters P n.store) : m.KeepsNames n :=
  ⟨hmn.scope, .of_grows hmn.grows halters, fun _ hf => hmn.context_eq hm hf nofun⟩

theorem KeepsNames.refl (m : Machine) : m.KeepsNames m := ⟨rfl, .refl none _, fun _ _ => rfl⟩

theorem KeepsNames.trans (hmn : m.KeepsNames n) (hno : n.KeepsNames o) : m.KeepsNames o :=
  ⟨hno.scope.trans hmn.scope, hmn.store.trans hno.store, fun f hf =>
    (hno.context f (Nat.lt_of_lt_of_le hf hmn.store.frames)).trans (hmn.context f hf)⟩

end Machine

namespace Run

variable {α : Type} {x : Run α} {m n o : Machine} {k : Nat} {s : Stmt}

/-- What is stored into variables does not matter here. -/
theorem accounts_values :
    Activity.Accounts fun _ m n => m.store.Alters (fun _ _ => True) n.store :=
  Activity.accounts_alters (fun _ _ => trivial) fun _ => trivial

theorem ends_keepsNames (hm : m.Sound) (hkeeps : Keeps (Steps false) x)
    (hwalks : Walks (fun m n => m.store.Alters (fun _ _ => True) n.store) x m) :
    Ends x m (fun _ n => n.Sound ∧ m.KeepsNames n) fun _ n => n.Sound ∧ m.KeepsNames n := by
  refine (Ends.and_keeps hwalks hkeeps).imp ?_ ?_
  · exact fun _ n hn => ⟨hn.1.1, .of_evolves hm (hn.2 hm) hn.1.2⟩
  · exact fun _ n hn => ⟨hn.1.1, .of_evolves hm (hn.2 hm) hn.1.2⟩

theorem keepsNames_expr (hm : m.Sound) (k : Nat) (e : Expr) :
    Ends (expr (invoke k) e) m (fun _ n => n.Sound ∧ m.KeepsNames n) fun _ n =>
      n.Sound ∧ m.KeepsNames n :=
  ends_keepsNames hm (keeps_expr (keeps_invoke k) e)
    (walks_expr accounts_values (walks_calls accounts_values k) e m hm)

theorem keepsNames_condition (hm : m.Sound) (k : Nat) (e : Expr) :
    Ends (condition (invoke k) e) m (fun _ n => n.Sound ∧ m.KeepsNames n) fun _ n =>
      n.Sound ∧ m.KeepsNames n :=
  ends_keepsNames hm (keeps_condition (keeps_invoke k) e)
    (walks_condition accounts_values (walks_calls accounts_values k) e hm)

theorem walksStmt_values (k : Nat) (s : Stmt) :
    WalksStmt (fun _ m n => m.store.Alters (fun _ _ => True) n.store) k s :=
  walks_stmt accounts_values (walks_calls accounts_values k) s

theorem keepsNames_stmt (hm : m.Sound) (k : Nat) (hs : s.declares = false) :
    Ends (stmt (invoke k) k s) m (fun _ n => n.Sound ∧ m.KeepsNames n) fun _ n =>
      n.Sound ∧ m.KeepsNames n :=
  ends_keepsNames hm (hs ▸ keeps_stmt_declares (keeps_invoke k) s) (walksStmt_values k s m hm)

theorem keepsNames_initial (hm : m.Sound) (k : Nat) (b : Binding) :
    Ends (initial (invoke k) b) m (fun _ n => n.Sound ∧ m.KeepsNames n) fun _ n =>
      n.Sound ∧ m.KeepsNames n :=
  ends_keepsNames hm (keeps_initial (keeps_invoke k) b) <|
    walks_initial accounts_values (a := ⟨k, .statement (.declare b), m⟩)
      (walks_calls accounts_values k) hm fun _ he => .operand he

/-- A new variable of the scope that the machine has come back to. -/
theorem declares_define (hm : m.Sound) (hn : n.Sound) (hmn : m.KeepsNames n) (slot : Slot) :
    m.store.Declares m.scope slot.name (n.store.defineSlot n.scope slot).2 := by
  have hdefine := Store.Revalues.of_grows (Store.grows_defineSlot n.store n.scope slot)
    (Store.alters_defineSlot (P := fun _ _ => False) n.store n.scope slot)
  have hnew := Store.slot_createSlot n.store slot ⟨n.store.slots.size⟩
  rw [if_pos rfl] at hnew
  have hframe := Store.frame_defineSlot n.store n.scope slot n.scope
  rw [if_pos ⟨rfl, hn.scope⟩] at hframe
  rw [hmn.scope] at hdefine hframe ⊢
  rw [hmn.store.frame m.scope hm.scope nofun] at hframe
  have hgrows := (hmn.store.of_none _).trans hdefine
  refine ⟨hgrows, ⟨n.store.slots.size⟩, hmn.store.slots, ?_, ?_, hframe⟩
  · simp [Store.defineSlot, Store.createSlot]
  · exact congrArg Slot.name hnew

/-- The initial value is worked out before the variable is there. -/
theorem ends_declare (hm : m.Sound) (k : Nat) (b : Binding) :
    Ends (declare (invoke k) b) m (fun _ n => m.Declares b.name n) fun _ n => m.KeepsNames n := by
  refine ends_bind.mpr ((keepsNames_initial hm k b).imp ?_ fun _ _ hn => hn.2)
  rintro ⟨value, type⟩ n ⟨hn, hmn⟩
  exact ⟨hmn.scope, declares_define hm hn hmn ⟨b.name, type, some value⟩⟩

theorem ends_makeField (hm : m.Sound) (k : Nat) (b : Binding) :
    Ends (makeField k b) m (fun _ n => m.Declares b.name n) fun _ n => m.KeepsNames n := by
  have hinitial := (keepsNames_initial hm k b).locate (p := b.position) fun _ _ hn => hn
  refine ends_bind.mpr (hinitial.imp ?_ fun _ _ hn => hn.2)
  rintro ⟨value, type⟩ n ⟨hn, hmn⟩
  exact ⟨hmn.scope, declares_define hm hn hmn ⟨b.name, type, some value⟩⟩

/-! ## Bodies -/

theorem beginsBody_enterFrame (hn : n.Sound) (hmn : m.KeepsNames n) (hm : m.Sound) :
    m.BeginsBody none (n.enterFrame n.scope) := by
  have hnew := Store.frame_createFrame n.store (some n.scope) ⟨n.store.frames.size⟩
  rw [if_pos rfl] at hnew
  have hcreate := Store.Revalues.of_grows (Store.grows_createFrame n.store (some n.scope))
    (Store.alters_createFrame (P := fun _ _ => False) n.store _)
  have hcontext := (context_enterFrame hn hn.scope).trans <|
    (congrArg n.store.context hmn.scope).trans
    (hmn.context m.scope hm.scope)
  refine ⟨hmn.store.frames, ?_, hmn.store.trans hcreate, ?_, ?_, fun _ => hcontext, nofun⟩
  · exact (congrArg Frame.parent hnew).trans (congrArg some hmn.scope)
  · exact fun key => congrArg (fun fr => fr.functions.find? key) hnew
  · exact fun x _ => congrArg (fun fr => fr.slots.find? x) hnew

/-- The variable of a loop is new in each round. -/
theorem beginsBody_define {name : String} {i : Int} {v : SlotId}
    (h : m.BeginsBody none n) (hn : n.Sound)
    (hv : Pass.define name .integer (some (.integer i)) n = .ok v o) :
    m.BeginsBody (some name) o := by
  let slot : Slot := ⟨name, .integer, some (.integer i)⟩
  obtain ⟨rfl, rfl⟩ : v = ⟨n.store.slots.size⟩ ∧
      o = { n with store := (n.store.defineSlot n.scope slot).2 } := by
    cases hv
    exact ⟨rfl, rfl⟩
  have hframe := Store.frame_defineSlot n.store n.scope slot n.scope
  rw [if_pos ⟨rfl, hn.scope⟩] at hframe
  have hnew := Store.slot_createSlot n.store slot ⟨n.store.slots.size⟩
  rw [if_pos rfl] at hnew
  have hold {f : FrameId} (hf : m.store.Has f) : some n.scope ≠ some f := by
    rintro ⟨⟩
    exact Nat.not_lt.mpr h.scope hf
  have hdefine := Store.Revalues.of_grows (Store.grows_defineSlot n.store n.scope slot)
    (Store.alters_defineSlot (P := fun _ _ => False) n.store n.scope slot)
  refine ⟨h.scope, ?_, ?_, ?_, ?_, nofun, ?_⟩
  · exact (congrArg Frame.parent hframe).trans h.parent
  · have hstore := (h.store.of_none (some n.scope)).trans hdefine
    exact { hstore with frame := fun f hf _ => hstore.frame f hf (hold hf) }
  · exact fun key => (congrArg (fun fr => fr.functions.find? key) hframe).trans (h.functions key)
  · intro x hx
    have hslots := congrArg (fun fr => fr.slots.find? x) hframe
    dsimp only at hslots ⊢
    rw [hslots, Table.find?_insert, if_neg fun hxn => hx (congrArg some hxn.symm)]
    exact h.slots x nofun
  · rintro x ⟨⟩
    refine ⟨⟨n.store.slots.size⟩, h.store.slots, ?_, congrArg Slot.type hnew⟩
    exact (context_define hn slot).trans (congrArg (Context.declare · name _) (h.context rfl))

/-- What a statement goes on to. -/
inductive LoopOf (s : Stmt) : Task → Prop
  | statement : LoopOf s (.statement s)
  | rounds {name : String} (h : s.loopVariable? = some name) (body : List Stmt) (count : Nat)
      (i : Int) : LoopOf s (.rounds name body count i)
  | turns (h : s.loopVariable? = none) (e : Expr) (body : List Stmt) (left : Nat) :
      LoopOf s (.turns e body left)

theorem keepsNames_round (hm : m.Sound) (k : Nat) (name : String) (body : List Stmt) (i : Int) :
    Ends (round k name body i) m (fun _ n => n.Sound ∧ m.KeepsNames n) fun _ n =>
      n.Sound ∧ m.KeepsNames n := by
  refine ends_keepsNames hm (keeps_round k name body i) ?_
  exact walks_round accounts_values (a := ⟨k, .rounds name body 1 i, m⟩)
    (fun s _ => walksStmt_values k s) name i hm fun _ _ hv => .round hv

theorem keepsNames_block (hm : m.Sound) (k : Nat) (body : List Stmt) :
    Ends (inScope (stmts (invoke k) k body)) m (fun _ n => n.Sound ∧ m.KeepsNames n) fun _ n =>
      n.Sound ∧ m.KeepsNames n := by
  have hinside := walks_stmts accounts_values (fun s (_ : s ∈ body) => walksStmt_values k s)
    (hm.enterFrame hm.scope)
  exact ends_keepsNames hm (keeps_inScope (keeps_body k body)) <|
    walks_inScope accounts_values (a := ⟨k, .statements body, m⟩) hm (keeps_body k body) hinside

/-- Where a loop goes on, names stand for what they stood for before the loop. -/
theorem loopOf_of_goes {a : Activity} (hm : m.Sound) (h : Activity.Goes ⟨k, .statement s, m⟩ a) :
    LoopOf s a.task ∧ a.machine.Sound ∧ m.KeepsNames a.machine := by
  induction h with
  | refl => exact ⟨.statement, hm, .refl m⟩
  | @tail a b _ hstep ih =>
    obtain ⟨hloop, ha, hma⟩ := ih
    obtain ⟨hbegins, htask⟩ := hstep
    obtain ⟨j, task, n⟩ := a
    cases hloop with
    | statement =>
      cases hbegins with
      | rounds he =>
        have hn := (keepsNames_expr ha j _).of_ok he
        exact ⟨.rounds rfl _ _ _, hn.1, hma.trans hn.2⟩
      | turns => exact ⟨.turns rfl _ _ _, ha, hma⟩
      | operand | value | branch => cases htask
    | rounds hname =>
      cases hbegins with
      | nextRound hi =>
        have hn := (keepsNames_round ha j _ _ _).of_ok hi
        exact ⟨.rounds hname _ _ _, hn.1, hma.trans hn.2⟩
      | round => cases htask
    | turns hname =>
      cases hbegins with
      | nextTurn he hbody =>
        have hn := (keepsNames_condition ha j _).of_ok he
        have ho := (keepsNames_block hn.1 j _).of_ok hbody
        exact ⟨.turns hname _ _ _, ho.1, (hma.trans hn.2).trans ho.2⟩
      | test | turn => cases htask

/-- Each body begins in a frame of its own. -/
theorem beginsBody_of_enters (hm : m.Sound) (h : s.Enters k m n) :
    m.BeginsBody s.loopVariable? n := by
  obtain ⟨⟨j, task, a⟩, ss, hgoes, hbegins⟩ := h
  obtain ⟨hloop, ha, hma⟩ := loopOf_of_goes hm hgoes
  cases hloop with
  | statement =>
    cases hbegins with
    | branch hb =>
      have hn := (keepsNames_condition ha _ _).of_ok hb
      exact beginsBody_enterFrame hn.1 (hma.trans hn.2) hm
  | rounds hname =>
    cases hbegins with
    | round hv =>
      rw [hname]
      exact beginsBody_define (beginsBody_enterFrame ha hma hm) (ha.enterFrame ha.scope) hv
  | turns hname =>
    cases hbegins with
    | turn he =>
      have hn := (keepsNames_condition ha _ _).of_ok he
      rw [hname]
      exact beginsBody_enterFrame hn.1 (hma.trans hn.2) hm

end Run

/-! ## Reachable states -/

namespace Machine

variable {s : Store} {parent : Option FrameId} {m : Machine} {k : Nat}

/-- Declarations are local to their block in every reachable state. -/
theorem Reachable.isBlockLocal (hs : s.WellFormed) (hparent : ∀ p ∈ parent, s.Has p)
    (h : Reachable s parent m k) : m.IsBlockLocal := by
  have hm := (h.sound hs hparent).1
  refine ⟨fun k e => ?_, fun k s hs => ?_, fun k b => ?_, ends_makeField hm,
    fun k s n => beginsBody_of_enters hm⟩
  · exact (keepsNames_expr hm k e).imp (fun _ _ hn => hn.2) fun _ _ hn => hn.2
  · exact (keepsNames_stmt hm k hs).imp (fun _ _ hn => hn.2) fun _ _ hn => hn.2
  · refine Ends.locate (ends_bind.mpr ((ends_declare hm k b).imp ?_ fun _ _ hn => hn))
      fun _ _ hn => hn
    exact fun _ _ hn => hn

/-- A round of a loop, in the second call of a method that calls itself. -/
theorem isBlockLocal_recursion :
    ∃ m, Store.initial.WellFormed ∧ Reachable .initial none m 2 ∧ m.IsBlockLocal := by
  let again : Method := ⟨.start, "again", [], none, [.ret .start (.call .start "again" [])]⟩
  have hdefined : Reachable .initial none _ 0 := .after .start 0 (.method again)
  have hfirst := hdefined.call 0 [] rfl ⟨8⟩ rfl (by decide) 0
  have hround := (hfirst.call 0 [] rfl ⟨8⟩ rfl (by decide) 0).round "i" 0
  have hs := Store.wellFormed_initial
  exact ⟨_, hs, hround, hround.isBlockLocal hs (by simp)⟩

end Machine

end BlockScript
