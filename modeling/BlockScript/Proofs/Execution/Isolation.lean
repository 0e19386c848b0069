import BlockScript.Proofs.Execution.Reachable
import BlockScript.Proofs.Execution.Sharing
import BlockScript.Proofs.Store.Hosting

/-!
# Calls are isolated from their callers

What is done in a method has to do with the frame that the method was defined in, the frames around
that one and the objects that there are, but not with the other scopes that there were before. These
stay as they are, and a call comes to the same whatever is in them. A host's function that a method
calls has only its arguments to work with (see `Body.native`).
-/

namespace BlockScript

open Attempt Pass

theorem rel_of_some {α β : Type} {R R' : α → β → Prop} {o : Option α} {p : Option β}
    (h : Option.Rel R o p) (hR : ∀ a b, o = some a → p = some b → R a b → R' a b) :
    Option.Rel R' o p := by
  cases h with
  | none => exact .none
  | some hab => exact .some (hR _ _ rfl rfl hab)

/-! ## Hosts -/

namespace Twinning

/-- Two machines that begin in the same store, of which they have everything in common. -/
def host (s : Store) (objects : FrameId → Prop) : Twinning where
  left := ⟨s, ⟨0⟩, [], 0⟩
  right := ⟨s, ⟨0⟩, [], 0⟩
  scopes := s.Has
  objects := objects
  slot v w := v = w ∧ v.index < s.slots.size
  function x y := x = y ∧ x.index < s.functions.size

section

variable {s : Store} {objects : FrameId → Prop} {parent : Option FrameId}

theorem lawful_host (hs : s.Hosted objects) : (host s objects).Lawful :=
  lawful_sharing hs.closed.copies

/-- All scopes correspond to themselves. -/
theorem scopes_host (f : FrameId) : (host s objects).Scopes f f := by
  by_cases hf : s.Has f
  · exact .inl ⟨rfl, hf⟩
  · exact .inr ⟨Nat.not_lt.mp hf, rfl⟩

theorem slots_host (v : SlotId) : (host s objects).Slots v v := by
  by_cases hv : v.index < s.slots.size
  · exact .inl ⟨rfl, hv⟩
  · exact .inr ⟨Nat.not_lt.mp hv, rfl⟩

theorem functions_host (x : FunctionId) : (host s objects).Functions x x := by
  by_cases hx : x.index < s.functions.size
  · exact .inl ⟨rfl, hx⟩
  · exact .inr ⟨Nat.not_lt.mp hx, rfl⟩

theorem twins_start (hs : s.Hosted objects) (hparent : ∀ p ∈ parent, s.Has p) :
    (host s objects).Twins (.start s parent) (.start s parent) :=
  twins_sharing hs.closed.copies hparent

end

theorem parallel_beginRound {κ : Correspondence} (hκ : κ.Lawful) (name : String) (i : Int) :
    κ.Parallel Eq (Part.beginRound name i) :=
  (Correspondence.parallel_define hκ name .integer (.integer i) nofun).bind fun _ _ _ =>
    lockstep_pure rfl

theorem parallel_part {τ : Twinning} (hτ : τ.Lawful) (fuel : Nat) (part : Part) :
    τ.correspondence.Parallel Eq (part.run fuel) := by
  have hκ := hτ.correspondence
  have hcall := Correspondence.calls_invoke hκ fuel
  have hkeeps := Run.keeps_invoke fuel
  have hstmt (s : Stmt) : τ.correspondence.Parallel τ.correspondence.Completions
      (Run.stmt (Run.invoke fuel) fuel s) :=
    Correspondence.parallel_stmt hκ hcall hkeeps s
  have hstmts (ss : List Stmt) : τ.correspondence.Parallel τ.correspondence.Completions
      (Run.stmts (Run.invoke fuel) fuel ss) :=
    Correspondence.parallel_stmts fun s _ => hstmt s
  have hsteps (ss : List Stmt) : Keeps (Steps true) (Run.stmts (Run.invoke fuel) fuel ss) :=
    Run.keeps_stmts fun s _ => Run.keeps_stmt hkeeps s
  cases part with
  | expression e =>
    exact (Correspondence.parallel_expr hκ hcall e).bind fun _ _ _ => lockstep_pure rfl
  | statement s => exact (hstmt s).bind fun _ _ _ => lockstep_pure rfl
  | statements ss => exact (hstmts ss).bind fun _ _ _ => lockstep_pure rfl
  | block ss =>
    have hrun := Correspondence.parallel_inScope hκ (hsteps ss) (hstmts ss)
    exact hrun.bind fun _ _ _ => lockstep_pure rfl
  | round name i ss =>
    have hkept := (Part.keeps_beginRound name i).bind fun _ => hsteps ss
    have hrun : τ.correspondence.Parallel τ.correspondence.Completions (do
        Part.beginRound name i
        Run.stmts (Run.invoke fuel) fuel ss) :=
      (parallel_beginRound hκ name i).bind fun _ _ _ => hstmts ss
    exact (Correspondence.parallel_inScope hκ hkept hrun).bind fun _ _ _ => lockstep_pure rfl
  | method m => exact parallel_defineMethod hτ m
  | program p => exact (parallel_program hτ fuel p).bind fun _ _ _ => lockstep_pure rfl

end Twinning

namespace Machine

open Twinning

variable {s : Store} {objects : FrameId → Prop} {parent : Option FrameId} {m n : Machine}
  {k l : Nat}

/-- Whatever a machine has come to has been made since, or else it is from the host. -/
theorem Reachable.twins (hs : s.Hosted objects) (hparent : ∀ p ∈ parent, s.Has p)
    (h : Reachable s parent m k) : (host s objects).Twins m m := by
  have hlawful := lawful_host hs
  induction h with
  | start => exact twins_start hs hparent
  | note _ event ih => exact ih.note event
  | after _ fuel part ih => exact (parallel_part hlawful fuel part _ _ ih).state
  | block _ ih => exact ih.enterFrame hlawful (.inr ih.scope) ih.leftScope
  | round _ name i ih =>
    have henter := ih.enterFrame hlawful (.inr ih.scope) ih.leftScope
    exact (parallel_beginRound hlawful.correspondence name i _ _ henter).state
  | @call m n k args d closure _ fuel es hargs f hf _ i ih =>
    have hκ := hlawful.correspondence
    have hcall := Correspondence.calls_invoke hκ fuel
    have hexprs := Correspondence.parallel_exprs
      (fun e (_ : e ∈ es) => Correspondence.parallel_expr hκ hcall e) m m ih
    rw [hargs] at hexprs
    obtain ⟨⟨-, hwithin⟩, hn⟩ := hexprs
    have hlogged := hn.note (.calling d.name args.length)
    have henter := hlogged.enterCall hlawful (scopes_host closure)
      (hn.left.wellFormed.closures f d closure hf)
    exact (Correspondence.parallel_defineParams hκ (d.params.take i) (n.store.function f).params
      hwithin _ _ henter).state

/-! ## What a method can see -/

/-- In the frame the same names are of variables with the same contents. -/
def SameVariables (m n : Machine) (f : FrameId) : Prop :=
  ∀ id, Option.Rel (fun v w => m.store.slot v = n.store.slot w)
    ((m.store.frame f).slots.find? id) ((n.store.frame f).slots.find? id)

def SameFunctions (m n : Machine) (f : FrameId) : Prop :=
  ∀ k, Option.Rel (fun x y => m.store.function x = n.store.function y)
    ((m.store.frame f).functions.find? k) ((n.store.frame f).functions.find? k)

theorem sameVariables_of_frame {f : FrameId}
    (hframe : n.store.frame f = m.store.frame f)
    (hslots : ∀ e ∈ (m.store.frame f).slots.entries, m.store.slot e.2 = n.store.slot e.2) :
    SameVariables m n f := by
  intro id
  rw [hframe]
  exact rel_self fun v hv => hslots (id, v) (Table.mem_of_find? hv)

theorem sameFunctions_of_frame {f : FrameId}
    (hframe : n.store.frame f = m.store.frame f)
    (hfunctions : ∀ e ∈ (m.store.frame f).functions.entries,
      m.store.function e.2 = n.store.function e.2) :
    SameFunctions m n f := by
  intro k
  rw [hframe]
  exact rel_self fun x hx => hfunctions (k, x) (Table.mem_of_find? hx)

/-- Two machines agree on the frame `c` and those around it, on the fields of objects and on how
many calls are going on. -/
structure Agrees (objects : FrameId → Prop) (c : FrameId) (m n : Machine) : Prop where
  depth : m.depth = n.depth
  parents : ∀ f ∈ m.store.chain c, (m.store.frame f).parent = (n.store.frame f).parent
  slots : ∀ f ∈ m.store.chain c, SameVariables m n f
  functions : ∀ f ∈ m.store.chain c, SameFunctions m n f
  fields : ∀ f, objects f → SameVariables m n f

theorem Agrees.refl (objects : FrameId → Prop) (c : FrameId) (m : Machine) :
    Agrees objects c m m :=
  ⟨rfl, fun _ _ => rfl, fun _ _ _ => rel_self fun _ _ => rfl,
    fun _ _ _ => rel_self fun _ _ => rfl, fun _ _ _ => rel_self fun _ _ => rfl⟩

/-- The frame has the same names, for the same variables with the same contents and for the same
functions. -/
structure Untouched (m n : Machine) (f : FrameId) : Prop where
  frame : n.store.frame f = m.store.frame f
  slots : ∀ id v, (m.store.frame f).slots.find? id = some v → n.store.slot v = m.store.slot v
  functions : ∀ k x, (m.store.frame f).functions.find? k = some x →
    n.store.function x = m.store.function x

end Machine

namespace Twinning

/-- What two machines that have begun in the store `s` have in common for methods that are defined
in the frame `c`. -/
def seen (s : Store) (objects : FrameId → Prop) (c : FrameId) (m n : Machine) : Twinning where
  left := m
  right := n
  scopes f := f ∈ m.store.chain c
  objects := objects
  slot v w := ∃ f id, (f ∈ m.store.chain c ∨ objects f) ∧
    (m.store.frame f).slots.find? id = some v ∧ (n.store.frame f).slots.find? id = some w
  function x y := (x = y ∧ x.index < s.functions.size) ∨ ∃ f k, f ∈ m.store.chain c ∧
    (m.store.frame f).functions.find? k = some x ∧ (n.store.frame f).functions.find? k = some y

variable {s : Store} {objects : FrameId → Prop} {parent : Option FrameId} {m n p q : Machine}
  {k l : Nat} {c : FrameId}

section

variable (hs : s.Hosted objects) (hm : (host s objects).Twins m m)
include hm

theorem within_host (v : SlotId) : ∀ value ∈ (m.store.slot v).value, value.Within objects :=
  (hm.sameSlots (slots_host v)).2

include hs

theorem native_host (x : FunctionId) (run : List Value → Except Breakdown Value)
    (hx : (m.store.function x).body = .native run) : Native.Within objects run := by
  have hbody := (hm.sameFunctions (lawful_host hs) (functions_host x)).body
  rw [hx] at hbody
  cases hbody with
  | native h => exact h

end

section

variable (hs : s.Hosted objects) (hm : (host s objects).Twins m m)
  (hn : (host s objects).Twins n n) (hc : m.store.Has c) (hc' : n.store.Has c)
  (h : Machine.Agrees objects c m n)
include hs hm hn hc hc' h

theorem lawful_seen : (seen s objects c m n).Lawful where
  scope f hf := by
    have hhas (t : Store) : t.Has c → t.Has f := Store.has_of_mem_chain hm.left.wellFormed hf
    refine ⟨hhas m.store hc, hhas n.store hc', ?_, fun id => ?_, fun k => ?_⟩
    · rw [show (seen s objects c m n).right.store = n.store from rfl, ← h.parents f hf]
      exact rel_self fun p hp => .inl ⟨rfl, Store.parent_mem_chain hm.left.wellFormed hf hp⟩
    · exact rel_of_some (h.slots f hf id) fun v w hv hw _ => .inl ⟨f, id, .inl hf, hv, hw⟩
    · exact rel_of_some (h.functions f hf k) fun x y hx hy _ => .inl (.inr ⟨f, k, hf, hx, hy⟩)
  object f hf := by
    refine ⟨hm.left.grows.has (hs.has f hf), hn.left.grows.has (hs.has f hf), fun id => ?_⟩
    exact rel_of_some (h.fields f hf id) fun v w hv hw _ => .inl ⟨f, id, .inr hf, hv, hw⟩
  slot v w := by
    rintro ⟨f, id, -, hv, hw⟩
    exact ⟨hm.left.wellFormed.slots f id v hv, hn.left.wellFormed.slots f id w hw⟩
  unique v w v' w' := by
    rintro ⟨f, id, -, hv, hw⟩ ⟨f', id', -, hv', hw'⟩
    constructor
    · rintro rfl
      obtain ⟨rfl, rfl⟩ := hm.left.tidy.slots f f' id id' v' hv hv'
      exact Option.some.inj (hw'.symm.trans hw)
    · rintro rfl
      obtain ⟨rfl, rfl⟩ := hn.left.tidy.slots f f' id id' w' hw hw'
      exact Option.some.inj (hv'.symm.trans hv)
  function x y := by
    rintro (⟨rfl, hx⟩ | ⟨f, k, hf, hx, hy⟩)
    · refine ⟨Nat.lt_of_lt_of_le hx hm.left.grows.functions,
        Nat.lt_of_lt_of_le hx hn.left.grows.functions, ?_⟩
      change SameFunctions _ (m.store.function x) (n.store.function x)
      rw [hm.left.functions x hx, hn.left.functions x hx]
      exact .same (hs.natives x) fun d c hc => absurd hc (hs.noMethods x d c)
    · refine ⟨(hm.left.wellFormed.functions f k x hx).1,
        (hn.left.wellFormed.functions f k y hy).1, ?_⟩
      have hsame := h.functions f hf k
      rw [hx, hy] at hsame
      cases hsame with
      | some hxy =>
        change SameFunctions _ (m.store.function x) (n.store.function y)
        rw [← hxy]
        refine .same (native_host hs hm x) fun d c' hc' => .inl ⟨rfl, ?_⟩
        rwa [hm.left.tidy.closures f k x d c' hx hc']
  members := hn.left.grows.members.trans hm.left.grows.members.symm
  catalog := hn.left.grows.catalog.trans hm.left.grows.catalog.symm
  methods t k x hx := by
    refine .inl ⟨rfl, (hs.wellFormed.methods t k x ?_).1⟩
    have hmembers : m.store.membersOf t = s.membersOf t := by
      rw [Store.membersOf, hm.left.grows.members]
      rfl
    rwa [← hmembers]

omit hs hc hc' in
theorem alike_seen : (seen s objects c m n).Alike m n := by
  refine alike_self ⟨hm.left.wellFormed, hm.left.tidy⟩
    ⟨hn.left.wellFormed, hn.left.tidy⟩ h.depth.symm ?_
  rintro v w ⟨f, id, hf, hv, hw⟩
  have hsame := hf.elim (fun hf => h.slots f hf id) fun hf => h.fields f hf id
  rw [hv, hw] at hsame
  cases hsame with
  | some hvw => exact ⟨hvw, within_host hm v⟩

end

/-! ## Afterwards -/

section

variable (hm : (host s objects).Twins m m)
include hm

/-- A frame that a method does not see is as it was. -/
theorem Remains.untouched (h : (seen s objects c m n).Remains p q) {f : FrameId}
    (hf : m.store.Has f) (hchain : f ∉ m.store.chain c) (hobject : ¬ objects f) :
    Machine.Untouched m p f where
  frame := h.left.grows.frame f hf nofun
  slots id v hv := by
    refine h.unseen v (hm.left.wellFormed.slots f id v hv) ?_
    rintro w ⟨g, id', hg, hv', -⟩
    obtain ⟨rfl, -⟩ := hm.left.tidy.slots f g id id' v hv hv'
    exact hg.elim hchain hobject
  functions k x hx := h.left.functions x (hm.left.wellFormed.functions f k x hx).1

theorem chain_seen (h : (seen s objects c m n).Remains p q) (hc : m.store.Has c) :
    p.store.chain c = m.store.chain c :=
  Store.chain_congr hm.left.wellFormed h.left.wellFormed fun _ hf =>
    h.left.grows.parent _ (Nat.lt_of_le_of_lt hf hc)

omit hm in
theorem Remains.sameVariables (h : (seen s objects c m n).Remains p q) {f : FrameId}
    (hf : f ∈ m.store.chain c ∨ objects f) (hleft : m.store.Has f) (hright : n.store.Has f)
    (hsame : Machine.SameVariables m n f) : Machine.SameVariables p q f := by
  intro id
  rw [h.left.grows.frame f hleft nofun, h.right.grows.frame f hright nofun]
  exact rel_of_some (hsame id) fun v w hv hw _ => (h.slot v w ⟨f, id, hf, hv, hw⟩).1

/-- Machines that agreed before a method has run do so afterwards. -/
theorem Remains.agrees (hs : s.Hosted objects) (hn : (host s objects).Twins n n)
    (hc : m.store.Has c) (hc' : n.store.Has c)
    (hagrees : Machine.Agrees objects c m n) (h : (seen s objects c m n).Remains p q)
    (hdepth : q.own = p.own) : Machine.Agrees objects c p q := by
  have hchain := chain_seen hm h hc
  have hleft (f : FrameId) (hf : f ∈ m.store.chain c) : m.store.Has f :=
    Store.has_of_mem_chain hm.left.wellFormed hf hc
  have hright (f : FrameId) (hf : f ∈ m.store.chain c) : n.store.Has f :=
    Store.has_of_mem_chain hm.left.wellFormed hf hc'
  refine ⟨hdepth.symm, ?_, ?_, ?_, fun f hf => ?_⟩
  · rw [hchain]
    intro f hf
    rw [h.left.grows.parent f (hleft f hf), h.right.grows.parent f (hright f hf)]
    exact hagrees.parents f hf
  · rw [hchain]
    exact fun f hf => h.sameVariables (.inl hf) (hleft f hf) (hright f hf)
      (hagrees.slots f hf)
  · rw [hchain]
    intro f hf k
    rw [h.left.grows.frame f (hleft f hf) nofun, h.right.grows.frame f (hright f hf) nofun]
    refine rel_of_some (hagrees.functions f hf k) fun x y hx hy hxy => ?_
    rw [h.left.functions x (hm.left.wellFormed.functions f k x hx).1,
      h.right.functions y (hn.left.wellFormed.functions f k y hy).1]
    exact hxy
  · exact h.sameVariables (.inr hf) (hm.left.grows.has (hs.has f hf))
      (hn.left.grows.has (hs.has f hf)) (hagrees.fields f hf)

end

/-! ## Calls -/

/-- The call of a method on machines that agree on what it sees. -/
theorem paired_invoke (hs : s.Hosted objects) (hm : (host s objects).Twins m m)
    (hn : (host s objects).Twins n n) {x y : FunctionId} {d : Method}
    (hx : (m.store.function x).body = .method d c) (hy : n.store.function y = m.store.function x)
    (hagrees : Machine.Agrees objects c m n) {args : List Value}
    (hargs : ∀ v ∈ args, v.Within objects) (fuel : Nat) :
    Paired (fun p q => (seen s objects c m n).Remains p q ∧ q.own = p.own)
      (seen s objects c m n).Values (Run.invoke fuel x args m) (Run.invoke fuel y args n) := by
  have hy' : (n.store.function y).body = .method d c := by rw [hy, hx]
  have hc := hm.left.wellFormed.closures x d c hx
  have hc' := hn.left.wellFormed.closures y d c hy'
  have hlawful := lawful_seen hs hm hn hc hc' hagrees
  have halike := alike_seen hm hn hagrees
  have hscope : c ∈ m.store.chain c := (Store.mem_chain hm.left.wellFormed).mpr (.inl rfl)
  refine paired_call hlawful hm.leftSound hn.leftSound halike hx hy' (by rw [hy])
    (.inl ⟨rfl, hscope⟩) (fun event => ?_) (fun p q hpq _ _ => ?_) hargs fuel
  · exact ⟨(halike.note event).toRemains, halike.depth⟩
  · exact ⟨{ hpq.toRemains with }, halike.depth⟩

end Twinning

namespace Machine

open Twinning

variable {s : Store} {objects : FrameId → Prop} {parent : Option FrameId} {m : Machine} {k : Nat}

/-- A call of `f`, a method that was defined in `c`, is isolated from the scopes of its caller. -/
structure Isolated (s : Store) (objects : FrameId → Prop) (parent : Option FrameId) (fuel : Nat)
    (f : FunctionId) (c : FrameId) (args : List Value) (m : Machine) : Prop where
  /-- Frames that the method does not see are afterwards as they were. -/
  untouched : ∀ g, m.store.Has g → g ∉ m.store.chain c → ¬ objects g →
    Untouched m (state (Run.invoke fuel f args m)) g
  /-- Where the method sees the same, it does the same. -/
  independent : ∀ n l g, Reachable s parent n l → n.store.function g = m.store.function f →
    Agrees objects c m n →
    Paired (fun p q => Agrees objects c p q ∧
        ∃ added, p.log = added ++ m.log ∧ q.log = added ++ n.log)
      Eq (Run.invoke fuel f args m) (Run.invoke fuel g args n)

/-- In every reachable state, calls of methods are isolated. -/
theorem Reachable.isolated (hs : s.Hosted objects) (hparent : ∀ p ∈ parent, s.Has p)
    (h : Reachable s parent m k) {f : FunctionId} {d : Method} {c : FrameId}
    (hf : (m.store.function f).body = .method d c) {args : List Value}
    (hargs : ∀ v ∈ args, v.Within objects) (fuel : Nat) :
    Isolated s objects parent fuel f c args m := by
  have hm := h.twins hs hparent
  have hc := hm.left.wellFormed.closures f d c hf
  constructor
  · intro g hg hchain hobject
    have hself := paired_invoke hs hm hm hf rfl (.refl objects c m) hargs fuel
    exact hself.state.1.untouched hm hg hchain hobject
  · intro n l g hn hg hagrees
    have hn := hn.twins hs hparent
    have hc' := hn.left.wellFormed.closures g d c (by rw [hg, hf])
    have hcalls := paired_invoke hs hm hn hf hg hagrees hargs fuel
    refine hcalls.imp ?_ fun v w hvw => hvw.1
    exact fun p q ⟨hpq, hdepth⟩ => ⟨hpq.agrees hm hs hn hc hc' hagrees hdepth, hpq.log⟩

/-- A method that sets a variable of the program, called from a block that has one of that name and
from one that has not. -/
theorem isolated_counter :
    ∃ m n d c, Store.initial.Hosted (Store.initial.Aside none) ∧
      Reachable .initial none m 0 ∧ Reachable .initial none n 0 ∧
      (m.store.function ⟨8⟩).body = .method d c ∧ Agrees (Store.initial.Aside none) c m n ∧
      n.store.findSlot? n.scope "count" ≠ m.store.findSlot? m.scope "count" ∧
      Isolated .initial (Store.initial.Aside none) none 1 ⟨8⟩ c [] m := by
  let count (i : Int) : Stmt :=
    .declare ⟨.start, "count", none, some (.literal .start (.integer i ""))⟩
  let set : Method := ⟨.start, "set", [], none,
    [.assign .start (.name .start "count") (.literal .start (.integer 2 ""))]⟩
  have hset : Reachable .initial none _ 0 :=
    (Reachable.start.after 0 (.statement (count 0))).after 0 (.method set)
  have hm := hset.block
  have hn := hm.after 0 (.statement (count 1))
  have hs := Store.furnished_initial.hosted
  refine ⟨_, _, set, ⟨0⟩, hs, hm, hn, rfl, ⟨rfl, ?_, ?_, ?_, ?_⟩, by decide,
    hm.isolated hs (by simp) rfl (by simp) 1⟩
  · intro f hf
    obtain rfl : f = ⟨0⟩ := List.mem_singleton.mp hf
    rfl
  · intro f hf
    obtain rfl : f = ⟨0⟩ := List.mem_singleton.mp hf
    exact sameVariables_of_frame rfl (List.forall_mem_cons.mpr ⟨rfl, nofun⟩)
  · intro f hf
    obtain rfl : f = ⟨0⟩ := List.mem_singleton.mp hf
    refine sameFunctions_of_frame rfl (List.forall_mem_cons.mpr ⟨rfl, ?_⟩)
    exact List.forall_mem_cons.mpr ⟨rfl, List.forall_mem_cons.mpr ⟨rfl, nofun⟩⟩
  · exact fun f hf => absurd hf.1 (Nat.not_lt_zero f.index)

end Machine

end BlockScript
