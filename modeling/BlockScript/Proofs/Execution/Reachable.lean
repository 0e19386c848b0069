import BlockScript.Proofs.Execution.Growth
import BlockScript.Proofs.Store.Root
import BlockScript.Toolchain

/-!
# The control state of a machine

A machine stands in a scope and counts the calls that are going on. Scopes are entered for blocks,
for the rounds of a loop and for calls, and they are left again in success and failure: every part
of a program ends in the scope that it began in, with the count that it began with. A host's
function is no part of a program and has no scope to enter (see `Body.native`).
-/

namespace BlockScript

open Attempt Pass

/-- A part of a program, as a machine runs it. -/
inductive Part
  | expression (e : Expr)
  | statement (s : Stmt)
  | statements (ss : List Stmt)
  | block (ss : List Stmt)
  /-- A round of a FOR, with the value of its variable. -/
  | round (name : String) (i : Int) (ss : List Stmt)
  | method (m : Method)
  | program (p : Program)

namespace Part

/-- The beginning of a round, in the scope that has been made for it. -/
def beginRound (name : String) (i : Int) : Run Unit := do
  let _ ← define name .integer (some (.integer i))

def run (fuel : Nat) : Part → Run Unit
  | expression e => do
    let _ ← Run.expr (Run.invoke fuel) e
  | statement s => do
    let _ ← Run.stmt (Run.invoke fuel) fuel s
  | statements ss => do
    let _ ← Run.stmts (Run.invoke fuel) fuel ss
  | block ss => do
    let _ ← inScope (Run.stmts (Run.invoke fuel) fuel ss)
  | round name i ss => do
    let _ ← inScope do
      beginRound name i
      Run.stmts (Run.invoke fuel) fuel ss
  | method m => Run.defineMethod m
  | program p => do
    let _ ← Run.program fuel p

end Part

namespace Machine

/-- The machine at the beginning of a call, when the first `i` parameters have their arguments. -/
def called (m : Machine) (fn : Function) (d : Method) (closure : FrameId) (args : List Value)
    (i : Nat) : Machine :=
  let m := { m with log := .calling d.name args.length :: m.log }
  state (Run.defineParams (d.params.take i) fn.params args (Run.enterCall closure m))

/-- The states of a machine that begins in the store `s` with a scope inside `parent`, while `k`
calls of methods are going on. -/
inductive Reachable (s : Store) (parent : Option FrameId) : Machine → (k : Nat) → Prop
  | start : Reachable s parent (.start s parent) 0
  | note {m : Machine} {k : Nat} (h : Reachable s parent m k) (event : Event) :
      Reachable s parent { m with log := event :: m.log } k
  /-- A part has ended, in success or failure. -/
  | after {m : Machine} {k : Nat} (h : Reachable s parent m k) (fuel : Nat) (part : Part) :
      Reachable s parent (state (part.run fuel m)) k
  | block {m : Machine} {k : Nat} (h : Reachable s parent m k) :
      Reachable s parent (m.enterFrame m.scope) k
  | round {m : Machine} {k : Nat} (h : Reachable s parent m k) (name : String) (i : Int) :
      Reachable s parent (state (Part.beginRound name i (m.enterFrame m.scope))) k
  /-- A method is called with arguments that have been worked out. -/
  | call {m n : Machine} {k : Nat} {args : List Value} {d : Method} {closure : FrameId}
      (h : Reachable s parent m k) (fuel : Nat) (es : List Expr)
      (hargs : Run.exprs (Run.invoke fuel) es m = .ok args n) (f : FunctionId)
      (hf : (n.store.function f).body = .method d closure)
      (hdepth : ¬ Run.maxCalls ≤ n.depth) (i : Nat) :
      Reachable s parent (n.called (n.store.function f) d closure args i) (k + 1)

/-- After `x`, in success and failure, the machine stands where it stood and counts what it
counted. -/
def Restores {α : Type} (x : Run α) (m : Machine) : Prop :=
  Ends x m (fun _ n => n.scope = m.scope ∧ n.depth = m.depth) fun _ n =>
    n.scope = m.scope ∧ n.depth = m.depth

/-- The run fails before it does anything but log. -/
def Refuses {α : Type} (x : Run α) (m : Machine) : Prop :=
  ∃ cause log, cause.family = .runtimeFault ∧ x m = .error (.of cause) { m with log }

/-- The machine is under control while `k` calls of methods are going on. -/
structure Controlled (m : Machine) (k : Nat) : Prop where
  depth : m.depth = k
  bounds : 0 ≤ m.depth ∧ m.depth ≤ 500
  parts : ∀ fuel (part : Part), Restores (part.run fuel) m
  calls : ∀ fuel f args, Restores (Run.invoke fuel f args) m
  refuses : ∀ fuel f args d closure, (m.store.function f).body = .method d closure →
    (Refuses (Run.invoke fuel f args) m ↔ k = 500)

end Machine

/-! ## Parts -/

namespace Part

theorem keeps_beginRound (name : String) (i : Int) : Keeps (Steps true) (beginRound name i) :=
  (keeps_define _ _ _).bind fun _ => keeps_pure _

/-- Whatever a part does, the machine is then in the scope and in the calls that it was in. -/
theorem keeps_run (fuel : Nat) (part : Part) : Keeps Broadens (part.run fuel) := by
  have hcall := Run.keeps_invoke fuel
  have hstmts (ss : List Stmt) : Keeps (Steps true) (Run.stmts (Run.invoke fuel) fuel ss) :=
    Run.keeps_stmts fun s _ => Run.keeps_stmt hcall s
  cases part with
  | expression e => exact (keeps_broadens (Run.keeps_expr hcall e)).bind fun _ => keeps_pure _
  | statement s => exact (keeps_broadens (Run.keeps_stmt hcall s)).bind fun _ => keeps_pure _
  | statements ss => exact (keeps_broadens (hstmts ss)).bind fun _ => keeps_pure _
  | block ss => exact (keeps_broadens (keeps_inScope (hstmts ss))).bind fun _ => keeps_pure _
  | round name i ss =>
    have hround := (keeps_beginRound name i).bind fun _ => hstmts ss
    exact (keeps_broadens (keeps_inScope hround)).bind fun _ => keeps_pure _
  | method m => exact Run.keeps_defineMethod m
  | program p => exact (Run.keeps_program fuel p).bind fun _ => keeps_pure _

end Part

namespace Machine

variable {s : Store} {parent : Option FrameId} {m n : Machine} {k : Nat}

/-- What is kept holds between the first state and the last. -/
theorem state_of_keeps {α : Type} {R : Machine → Machine → Prop} {x : Run α} (h : Keeps R x)
    (m : Machine) : R m (state (x m)) := by
  have hm := h m
  unfold Ends at hm
  cases hx : x m <;> rw [hx] at hm <;> exact hm

theorem restores_of_keeps {α : Type} {x : Run α} (h : Keeps Broadens x) (hm : m.Sound) :
    Restores x m :=
  (h m).imp (fun _ _ hn => ⟨(hn hm).scope, (hn hm).own⟩) fun _ _ hn => ⟨(hn hm).scope, (hn hm).own⟩

/-! ## Calls -/

theorem evolves_called (hm : m.Sound) (fn : Function) (d : Method) {closure : FrameId}
    (hclosure : m.store.Has closure) (args : List Value) (i : Nat) :
    (m.called fn d closure args i).Sound ∧ (m.called fn d closure args i).depth = m.depth + 1 := by
  let a : Machine := { m with log := .calling d.name args.length :: m.log }
  have henter := Run.sound_enterCall (a := a) ⟨hm.store, hm.scope⟩ hclosure
  have hparams := state_of_keeps (Run.keeps_defineParams (d.params.take i) fn.params args)
    (Run.enterCall closure a) henter
  exact ⟨hparams.sound, hparams.own⟩

/-- A call that begins makes a frame. -/
theorem frames_lt_method {body : List Stmt → Run Completion}
    (hbody : ∀ ss, Keeps (Steps true) (body ss)) (hm : m.Sound) (d : Method) {closure : FrameId}
    (hclosure : m.store.Has closure) (types : List Ty) (args : List Value) :
    Ends (Run.method body d closure types args) m
      (fun _ n => m.store.frames.size < n.store.frames.size) fun _ n =>
        m.store.frames.size < n.store.frames.size := by
  have hinside := Run.keeps_callBody hbody d types args
  have hlt : ∀ n, Steps true (Run.enterCall closure m) n →
      m.store.frames.size < n.store.frames.size := fun n hn => by
    have hframes := (hn (Run.sound_enterCall hm hclosure)).grows.frames
    have hsize : (Run.enterCall closure m).store.frames.size = m.store.frames.size + 1 := by
      simp [Run.enterCall, enterFrame, Store.createFrame]
    omega
  refine ends_bind.mpr ((ends_backTo (Run.inCall_eq hm hclosure hinside)).mpr ?_)
  refine (hinside _).imp (fun completion n hn => ?_) fun _ n hn => hlt n hn
  cases completion <;> exact hlt n hn

/-- A method is refused just if as many calls are going on as may be. -/
theorem refuses_dispatch_iff {body : List Stmt → Run Completion}
    (hbody : ∀ ss, Keeps (Steps true) (body ss)) (hm : m.Sound) {f : FunctionId}
    (args : List Value) {d : Method} {closure : FrameId}
    (hf : (m.store.function f).body = .method d closure) :
    Refuses (Run.dispatch body f args) m ↔ Run.maxCalls ≤ m.depth := by
  unfold Refuses
  rw [Run.dispatch_method hf]
  split
  · rename_i hfull
    exact iff_of_true ⟨_, _, rfl, rfl⟩ hfull
  · rename_i hfree
    refine iff_of_false ?_ hfree
    rintro ⟨cause, log, -, hrefused⟩
    have hlogged : Sound { m with log := .calling d.name args.length :: m.log } :=
      ⟨hm.store, hm.scope⟩
    have hlt := (frames_lt_method hbody hlogged d (hm.store.closures f d closure hf)
      (m.store.function f).params args).of_error hrefused
    exact Nat.lt_irrefl _ hlt

theorem refuses_invoke_iff (hm : m.Sound) (fuel : Nat) {f : FunctionId} (args : List Value)
    {d : Method} {closure : FrameId} (hf : (m.store.function f).body = .method d closure) :
    Refuses (Run.invoke fuel f args) m ↔ Run.maxCalls ≤ m.depth := by
  rw [Run.invoke_eq]
  exact refuses_dispatch_iff (Run.keeps_methodBody fuel) hm args hf

/-! ## Reachable states -/

section

variable (hs : s.WellFormed) (hparent : ∀ p ∈ parent, s.Has p)
include hs hparent

/-- The invariant of all reachable states. -/
theorem Reachable.sound (h : Reachable s parent m k) :
    m.Sound ∧ m.depth = k ∧ k ≤ Run.maxCalls := by
  induction h with
  | start => exact ⟨sound_start hs hparent, rfl, Nat.zero_le _⟩
  | note _ _ ih => exact ⟨⟨ih.1.store, ih.1.scope⟩, ih.2⟩
  | after _ fuel part ih =>
    have hpart := state_of_keeps (part.keeps_run fuel) _ ih.1
    exact ⟨hpart.sound, hpart.own.trans ih.2.1, ih.2.2⟩
  | block _ ih => exact ⟨ih.1.enterFrame ih.1.scope, ih.2⟩
  | round _ name i ih =>
    have hround := state_of_keeps (Part.keeps_beginRound name i) _ (ih.1.enterFrame ih.1.scope)
    exact ⟨hround.sound, hround.own.trans ih.2.1, ih.2.2⟩
  | @call m n k args d closure _ fuel es hargs f hf hdepth i ih =>
    have hexprs := Run.keeps_exprs fun e (_ : e ∈ es) => Run.keeps_expr (Run.keeps_invoke fuel) e
    have hn := (hexprs m).of_ok hargs ih.1
    have hcalled := evolves_called hn.sound (n.store.function f) d
      (hn.sound.store.closures f d closure hf) args i
    have hcount : n.depth = k := hn.own.trans ih.2.1
    refine ⟨hcalled.1, ?_, ?_⟩
    · rw [hcalled.2, hcount]
      rfl
    · rw [hcount] at hdepth
      omega

/-- Every reachable state is under control. -/
theorem Reachable.controlled (h : Reachable s parent m k) : m.Controlled k := by
  obtain ⟨hm, hdepth, hk⟩ := h.sound hs hparent
  have hk' : k ≤ 500 := hk
  refine ⟨hdepth, by omega, fun fuel part => restores_of_keeps (part.keeps_run fuel) hm,
    fun fuel f args => restores_of_keeps (keeps_broadens (Run.keeps_invoke fuel f args)) hm, ?_⟩
  intro fuel f args d closure hf
  rw [refuses_invoke_iff hm fuel args hf, hdepth]
  unfold Run.maxCalls
  omega

end

/-- A block in a call of a method that calls itself. -/
theorem controlled_recursion :
    ∃ m, Store.initial.WellFormed ∧ Reachable .initial none m 1 ∧ m.Controlled 1 := by
  let again : Method := ⟨.start, "again", [], none, [.ret .start (.call .start "again" [])]⟩
  have hdefined : Reachable .initial none _ 0 := .after .start 0 (.method again)
  have hcalled := hdefined.call 0 [] rfl ⟨8⟩ rfl (by decide) 0
  have hs := Store.wellFormed_initial
  exact ⟨_, hs, hcalled.block, hcalled.block.controlled hs (by simp)⟩

end Machine

end BlockScript
