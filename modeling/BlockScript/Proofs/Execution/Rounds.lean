import BlockScript.Proofs.Execution.Reachable
import BlockScript.Proofs.Execution.Walk
import Mathlib.Data.Int.Range

/-!
# Rounds of a loop over a range

A FOR works out its iterable once. From then on it runs a round for each number of the range, in
order, in a new frame that holds nothing but the variable with this number, until a round returns or
fails. So what a body does to the variable, or to the place that the range was read from, is of no
account, and a loop over a range is the same as loops over two parts of it, one after the other.
-/

namespace BlockScript

open Attempt Pass Run

theorem Store.modify_push_size {α : Type} (xs : Array α) (x : α) (f : α → α) :
    (xs.push x).modify xs.size f = xs.push (f x) := by
  ext i _ hi
  · simp
  · simp only [Array.getElem_modify, Array.getElem_push]
    grind

namespace Machine

/-- The machine at the beginning of a round for `i`: it has one more frame, inside the scope of `m`,
and one more variable, which has the value `i` and is all that the frame holds. -/
def inRound (name : String) (i : Int) (m : Machine) : Machine :=
  { m with
    scope := ⟨m.store.frames.size⟩
    store := { m.store with
      frames := m.store.frames.push
        ⟨some m.scope, Table.empty.insert name ⟨m.store.slots.size⟩, .empty⟩
      slots := m.store.slots.push ⟨name, .integer, some (.integer i)⟩ } }

theorem define_enterFrame (name : String) (i : Int) (m : Machine) :
    define name .integer (some (.integer i)) (m.enterFrame m.scope) =
      .ok ⟨m.store.slots.size⟩ (m.inRound name i) := by
  change EStateM.Result.ok _ _ = _
  simp [inRound, enterFrame, Store.createFrame, Store.modify_push_size]

theorem sound_inRound {m : Machine} (hm : m.Sound) (name : String) (i : Int) :
    (m.inRound name i).Sound := by
  have hkeeps : Keeps (Steps true) (define name .integer (some (.integer i)) : Run SlotId) :=
    keeps_define _ _ _
  have hdefine := (hkeeps (m.enterFrame m.scope)).of_ok (define_enterFrame name i m)
  exact (hdefine (hm.enterFrame hm.scope)).sound

end Machine

/-- Rounds for the numbers of a list, each on the machine that the one before has left, where the
scope is again that of the loop. After a round that returns or fails there are no more. -/
inductive Rounds (k : Nat) (p : Position) (name : String) (body : List Stmt) :
    List Int → Machine → EStateM.Result Failure Machine Completion → Prop
  | done (m : Machine) : Rounds k p name body [] m (.ok .next m)
  | next {i : Int} {is : List Int} {m n : Machine} {r : EStateM.Result Failure Machine Completion}
      (hbody : stmts (invoke k) k body (m.inRound name i) = .ok .next n)
      (hrest : Rounds k p name body is { n with scope := m.scope } r) :
      Rounds k p name body (i :: is) m r
  | returned {i : Int} (is : List Int) {m n : Machine} {v : Value}
      (hbody : stmts (invoke k) k body (m.inRound name i) = .ok (.returned v) n) :
      Rounds k p name body (i :: is) m (.ok (.returned v) { n with scope := m.scope })
  | failed {i : Int} (is : List Int) {m n : Machine} {e : Failure}
      (hbody : stmts (invoke k) k body (m.inRound name i) = .error e n) :
      Rounds k p name body (i :: is) m (.error (e.locate p) { n with scope := m.scope })

namespace Rounds

variable {k : Nat} {p : Position} {name : String} {body : List Stmt} {is js : List Int}
  {m n : Machine} {r r' : EStateM.Result Failure Machine Completion}

theorem unique (h : Rounds k p name body is m r) (h' : Rounds k p name body is m r') : r = r' := by
  induction h with
  | done => cases h'; rfl
  | next hbody _ ih =>
    cases h' with
    | next hbody' hrest' =>
      rw [hbody] at hbody'
      cases hbody'
      exact ih hrest'
    | returned _ hbody' | failed _ hbody' => rw [hbody] at hbody'; cases hbody'
  | returned _ hbody =>
    cases h' with
    | returned _ hbody' => rw [hbody] at hbody'; cases hbody'; rfl
    | next hbody' | failed _ hbody' => rw [hbody] at hbody'; cases hbody'
  | failed _ hbody =>
    cases h' with
    | failed _ hbody' => rw [hbody] at hbody'; cases hbody'; rfl
    | next hbody' | returned _ hbody' => rw [hbody] at hbody'; cases hbody'

/-- Rounds that all go on are followed by further ones. -/
theorem append (h : Rounds k p name body is m (.ok .next n)) (h' : Rounds k p name body js n r) :
    Rounds k p name body (is ++ js) m r := by
  generalize hr : EStateM.Result.ok Completion.next n = r' at h
  induction h with
  | done => cases hr; exact h'
  | next hbody _ ih => exact .next hbody (ih hr)
  | returned | failed => cases hr

/-- Rounds of which one returns or fails are not followed by any. -/
theorem append_of_stopped (h : Rounds k p name body is m r) (hr : ∀ n, r ≠ .ok .next n)
    (js : List Int) : Rounds k p name body (is ++ js) m r := by
  induction h with
  | done m => exact absurd rfl (hr m)
  | next hbody _ ih => exact .next hbody (ih hr)
  | returned is hbody => exact .returned (is ++ js) hbody
  | failed is hbody => exact .failed (is ++ js) hbody

end Rounds

namespace Run

variable {k : Nat} {p : Position} {name : String} {body : List Stmt} {m n : Machine}
  {e e₁ e₂ : Expr} {a b c : Int} {r : EStateM.Result Failure Machine Completion}

/-- A round runs the body in a new frame, and then the machine stands where it stood. -/
theorem round_eq (hm : m.Sound) (k : Nat) (name : String) (body : List Stmt) (i : Int) :
    round k name body i m = match stmts (invoke k) k body (m.inRound name i) with
      | .ok completion n => .ok completion { n with scope := m.scope }
      | .error e n => .error e { n with scope := m.scope } := by
  rw [round, inScope_eq hm (keeps_inRound k name body i),
    bind_of_ok (Machine.define_enterFrame name i m)]
  have hinside := keeps_body k body (m.inRound name i)
  have hleave {n : Machine} (hn : (m.inRound name i).Evolves true n) :
      m.leave n = { n with scope := m.scope } := by
    have hown : n.own = m.own := hn.own
    rw [Pass.leave, ← hown]
  cases hbody : stmts (invoke k) k body (m.inRound name i) with
  | ok completion n =>
    exact congrArg (EStateM.Result.ok completion)
      (hleave (hinside.of_ok hbody (Machine.sound_inRound hm name i)))
  | error e n =>
    exact congrArg (EStateM.Result.error e)
      (hleave (hinside.of_error hbody (Machine.sound_inRound hm name i)))

/-- The first numbers from `i` on. -/
def numbers (i : Int) (count : Nat) : List Int := (List.range count).map fun (j : Nat) => i + j

theorem numbers_succ (i : Int) (count : Nat) :
    numbers i (count + 1) = i :: numbers (i + 1) count := by
  rw [numbers, List.range_succ_eq_map, List.map_cons, List.map_map, numbers]
  congr 1
  · exact Int.add_zero i
  · refine List.map_congr_left fun j _ => ?_
    simp only [Function.comp, Nat.succ_eq_add_one, Int.natCast_add, Int.natCast_one]
    omega

theorem numbers_add (i : Int) (count more : Nat) :
    numbers i (count + more) = numbers i count ++ numbers (i + count) more := by
  rw [numbers, List.range_add, List.map_append, List.map_map, numbers, numbers]
  congr 1
  refine List.map_congr_left fun j _ => ?_
  simp only [Function.comp, Int.natCast_add]
  omega

theorem range_eq_numbers (a b : Int) : Int.range a b = numbers a (b - a).toNat := rfl

theorem range_append (hac : a ≤ c) (hcb : c ≤ b) :
    Int.range a c ++ Int.range c b = Int.range a b := by
  have hcount : (b - a).toNat = (c - a).toNat + (b - c).toNat := by omega
  have hmiddle : a + (c - a).toNat = c := by omega
  rw [range_eq_numbers a b, hcount, numbers_add, hmiddle]
  rfl

/-- What a loop does is rounds, by induction on how many there may be; every round leaves a sound
machine to the next. -/
theorem rounds_forLoop (hm : m.Sound) (k : Nat) (p : Position) (name : String) (body : List Stmt)
    (count : Nat) (i : Int) : Rounds k p name body (numbers i count) m
      (locate p (forLoop (round k name body) count i) m) := by
  induction count generalizing i m with
  | zero => exact .done m
  | succ count ih =>
    have hround := round_eq hm k name body i
    rw [numbers_succ, forLoop, locate]
    cases hbody : stmts (invoke k) k body (m.inRound name i) with
    | ok completion n =>
      rw [hbody] at hround
      rw [bind_of_ok hround]
      cases completion with
      | next =>
        have hn := ((keeps_round k name body i m).of_ok hround hm).sound
        exact .next hbody (ih hn (i + 1))
      | returned v => exact .returned _ hbody
    | error e n =>
      rw [hbody] at hround
      rw [bind_of_error hround]
      exact .failed _ hbody

theorem stmt_forLoop (he : expr (invoke k) e m = .ok (.range a b) n) (p : Position) (name : String)
    (body : List Stmt) : stmt (invoke k) k (.forLoop p name e body) m =
      locate p (forLoop (round k name body) (b - a).toNat a) n := by
  rw [stmt, locate, bind_of_ok he]
  rfl

/-- A FOR is rounds for the numbers of its range. -/
theorem stmt_forLoop_iff_rounds (hm : m.Sound) (he : expr (invoke k) e m = .ok (.range a b) n) :
    stmt (invoke k) k (.forLoop p name e body) m = r ↔
      Rounds k p name body (Int.range a b) n r := by
  have hn := ((keeps_expr (keeps_invoke k) e m).of_ok he hm).sound
  have hrounds := rounds_forLoop hn k p name body (b - a).toNat a
  rw [stmt_forLoop he]
  exact ⟨fun h => h ▸ hrounds, hrounds.unique⟩

theorem stmts_singleton (call : Call) (fuel : Nat) (s : Stmt) :
    stmts call fuel [s] = stmt call fuel s := by
  funext m
  rw [stmts]
  cases hs : stmt call fuel s m with
  | ok completion n =>
    rw [bind_of_ok hs]
    cases completion <;> rfl
  | error e n => exact bind_of_error hs

/-- A loop over a range is a loop over its first part, and one over the rest if that goes on. -/
theorem stmt_forLoop_split (hm : m.Sound) (hac : a ≤ c) (hcb : c ≤ b)
    (he : expr (invoke k) e m = .ok (.range a b) n)
    (he₁ : expr (invoke k) e₁ m = .ok (.range a c) n)
    (he₂ : ∀ u, stmt (invoke k) k (.forLoop p name e₁ body) m = .ok .next u →
      expr (invoke k) e₂ u = .ok (.range c b) u) :
    stmt (invoke k) k (.forLoop p name e body) m =
      stmts (invoke k) k [.forLoop p name e₁ body, .forLoop p name e₂ body] m := by
  rw [stmt_forLoop_iff_rounds hm he, ← range_append hac hcb, stmts, stmts_singleton]
  cases hfirst : stmt (invoke k) k (.forLoop p name e₁ body) m with
  | ok completion u =>
    have hrounds := (stmt_forLoop_iff_rounds hm he₁).mp hfirst
    rw [bind_of_ok hfirst]
    cases completion with
    | next =>
      have hu := ((keeps_stmt (keeps_invoke k) _ m).of_ok hfirst hm).sound
      exact hrounds.append ((stmt_forLoop_iff_rounds hu (he₂ u hfirst)).mp rfl)
    | returned v => exact hrounds.append_of_stopped nofun _
  | error e u =>
    rw [bind_of_error hfirst]
    exact ((stmt_forLoop_iff_rounds hm he₁).mp hfirst).append_of_stopped nofun _

end Run

/-! ## Reachable states -/

namespace Machine

/-- What a FOR does on the machine, if its iterable is a range: the rounds for the numbers of the
range, and nothing if there are none. The loop over the whole is the loops over two parts in
sequence, and where an expression has the same range after the loop, a loop over it does the same
rounds again. -/
structure RunsRanges (m : Machine) : Prop where
  rounds : ∀ k p name e body a b n r, expr (invoke k) e m = .ok (.range a b) n →
    (stmt (invoke k) k (.forLoop p name e body) m = r ↔ Rounds k p name body (Int.range a b) n r)
  empty : ∀ k p name e body a b n, expr (invoke k) e m = .ok (.range a b) n → b ≤ a →
    stmt (invoke k) k (.forLoop p name e body) m = .ok .next n
  splits : ∀ k p name e e₁ e₂ body a b c n, a ≤ c → c ≤ b →
    expr (invoke k) e m = .ok (.range a b) n → expr (invoke k) e₁ m = .ok (.range a c) n →
    (∀ u, stmt (invoke k) k (.forLoop p name e₁ body) m = .ok .next u →
      expr (invoke k) e₂ u = .ok (.range c b) u) →
    stmt (invoke k) k (.forLoop p name e body) m =
      stmts (invoke k) k [.forLoop p name e₁ body, .forLoop p name e₂ body] m
  again : ∀ k p name e body a b n u, expr (invoke k) e m = .ok (.range a b) n →
    stmt (invoke k) k (.forLoop p name e body) m = .ok .next u →
    ∀ p' name' e' body' n' r, expr (invoke k) e' u = .ok (.range a b) n' →
      (stmt (invoke k) k (.forLoop p' name' e' body') u = r ↔
        Rounds k p' name' body' (Int.range a b) n' r)

theorem runsRanges_of_sound {m : Machine} (hm : m.Sound) : m.RunsRanges where
  rounds k p name e body a b n r he := stmt_forLoop_iff_rounds hm he
  empty k p name e body a b n he hba := by
    have hcount : (b - a).toNat = 0 := by omega
    rw [stmt_forLoop he, hcount]
    rfl
  splits k p name e e₁ e₂ body a b c n hac hcb he he₁ he₂ :=
    stmt_forLoop_split hm hac hcb he he₁ he₂
  again k p name e body a b n u he hloop p' name' e' body' n' r he' :=
    have hu := ((keeps_stmt (keeps_invoke k) _ m).of_ok hloop hm).sound
    stmt_forLoop_iff_rounds hu he'

/-- In every reachable state a FOR goes through its range. -/
theorem Reachable.runsRanges {s : Store} {parent : Option FrameId} {m : Machine} {k : Nat}
    (hs : s.WellFormed) (hparent : ∀ p ∈ parent, s.Has p) (h : Reachable s parent m k) :
    m.RunsRanges :=
  runsRanges_of_sound (h.sound hs hparent).1

/-- A loop whose body assigns to the variable of the loop. -/
theorem runsRanges_reassigning : ∃ (m n : Machine) (r : EStateM.Result Failure Machine Completion),
    Store.initial.WellFormed ∧ Reachable .initial none m 0 ∧
      expr (invoke 1) (.call .start "range" [.literal .start (.integer 0 "0"),
        .literal .start (.integer 2 "2")]) m = .ok (.range 0 2) n ∧
      Rounds 1 .start "i" [.assign .start (.name .start "i") (.literal .start (.integer 9 "9"))]
        [0, 1] n r := by
  have hstart : Reachable .initial none (.start .initial none) 0 := .start
  have hruns := hstart.runsRanges Store.wellFormed_initial (by simp)
  let ends : Expr := .call .start "range"
    [.literal .start (.integer 0 "0"), .literal .start (.integer 2 "2")]
  have hends : expr (invoke 1) ends (.start .initial none) = .ok (.range 0 2) _ := rfl
  exact ⟨_, _, _, Store.wellFormed_initial, hstart, hends,
    (hruns.rounds 1 .start "i" ends _ 0 2 _ _ hends).mp rfl⟩

end Machine

end BlockScript
