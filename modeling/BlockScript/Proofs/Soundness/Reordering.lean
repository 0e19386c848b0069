import BlockScript.Proofs.Execution.Renumbering
import BlockScript.Proofs.Soundness.Placing
import BlockScript.Proofs.Typing.Reordering

/-!
# Programs with their methods in another order

Where each method has a name and an arity of its own and hides nothing, the order of the methods
makes no difference: the analysis finds the same types, and a run does the same.
-/

namespace BlockScript

open Attempt Pass

namespace Run

variable {n : Machine} {ds ds' : List Method}

/-- Once the methods are defined, in whatever order, `main` does the same. -/
theorem paired_callMain (hn : n.Sound) (htypes : ∀ d ∈ ds, n.store.Types d) (hperm : ds'.Perm ds)
    (hdistinct : (ds.map Method.key).Nodup) (fuel : Nat) :
    Paired Pass.Renumbers Eq ((do ds.forM defineMethod; callMain fuel) n)
      ((do ds'.forM defineMethod; callMain fuel) n) := by
  have hleft := defineMethods_eq htypes
  have hright := defineMethods_eq fun d hd => htypes d (hperm.subset hd)
  have hkeys : ((ds.map fun d => d.function n.store n.scope).map Function.key).Nodup := by
    have hsame : ds.map (Function.key ∘ fun d => d.function n.store n.scope) = ds.map Method.key :=
      List.map_congr_left fun d hd => (htypes d hd).key n.scope
    rwa [List.map_map, hsame]
  have hfns : ∀ fn ∈ ds.map fun d => d.function n.store n.scope,
      ∀ d c, fn.body = .method d c → n.store.Has c := by
    rintro _ hfn d c hc
    obtain ⟨e, -, rfl⟩ := List.mem_map.mp hfn
    cases hc
    exact hn.scope
  have hrenumbers := Store.renumbers_defineAll hn.store hn.scope hfns
    (hperm.map fun d => d.function n.store n.scope) hkeys
  have hkeeps (ds : List Method) : Keeps Broadens (ds.forM defineMethod) :=
    keeps_forM fun d _ => keeps_defineMethod d
  rw [bind_of_ok hleft, bind_of_ok hright]
  have hleftSound := ((hkeeps ds n).of_ok hleft hn).sound
  have hrightSound := ((hkeeps ds' n).of_ok hright hn).sound
  have hlawful := Correspondence.lawful_renumbering
    (n.store.defineAll n.scope (ds.map fun d => d.function n.store n.scope))
    (n.store.defineAll n.scope (ds'.map fun d => d.function n.store n.scope))
  refine (Correspondence.parallel_callMain hlawful fuel _ _ ?_).imp ?_ fun _ _ h => h.1
  · exact ⟨⟨hrenumbers, rfl, rfl, rfl⟩, hleftSound, hrightSound, rfl, rfl⟩
  · exact fun _ _ h => Correspondence.Renumbered.toRenumbers h

end Run

namespace Program

variable {s t : Store} {parent : Option FrameId} {p q : Program} {typed typed' : TypedProgram}
  {a b : Analysis}

theorem paired_run_reordered (ht : t.WellFormed) (hparent : ∀ f ∈ parent, t.Has f)
    (hfields : q.fields = p.fields) (hperm : q.methods.Perm p.methods)
    (hdistinct : (p.methods.map Method.key).Nodup) (htypes : ∀ d ∈ p.methods, t.Types d)
    (fuel : Nat) : Paired Pass.Renumbers Eq (p.run fuel t parent) (q.run fuel t parent) := by
  have hstart := Machine.sound_start ht hparent
  have hrun : Paired Pass.Renumbers Eq
      ((do p.fields.forM (Run.makeField fuel); p.methods.forM Run.defineMethod; Run.callMain fuel)
        (Machine.start t parent))
      ((do q.fields.forM (Run.makeField fuel); q.methods.forM Run.defineMethod; Run.callMain fuel)
        (Machine.start t parent)) := by
    rw [hfields]
    refine (Run.keeps_fields fuel p.fields (Machine.start t parent)).paired.bind ?_ ?_
    · rintro _ _ n _ rfl ⟨rfl, hn⟩
      have hn := hn hstart
      refine Run.paired_callMain hn.sound (fun d hd => (htypes d hd).congr ?_) hperm hdistinct fuel
      exact hn.grows.catalog.trans (Store.grows_createRoot t parent .print).catalog
    · rintro n _ ⟨rfl, -⟩
      exact ⟨.refl _, rfl, rfl, rfl⟩
  exact hrun

/-- A program whose methods have names and arities of their own, under which nothing is known where
the program begins, and the same program with its methods in another order: if both are accepted,
all methods and expressions have the same types in both, and runs of both give the same value or
fail with the same error, having printed the same and left the same in all variables. -/
theorem agrees_reordered (hs : s.WellFormed) (hparent : ∀ f ∈ parent, s.Has f)
    (hindependent : (Analysis.start s parent).context.Independent p.methods)
    (hfields : q.fields = p.fields) (hperm : q.methods.Perm p.methods)
    (hcheck : p.check s parent = .ok typed a) (hcheck' : q.check s parent = .ok typed' b) :
    typed'.fields = typed.fields ∧
    (∀ m ∈ typed.methods, ∃ m' ∈ typed'.methods, m.Matches a.store b.store m') ∧
    ∀ t, t.WellFormed → s.Grows none t → ∀ fuel,
      Paired Pass.Renumbers Eq (p.run fuel t parent) (q.run fuel t parent) := by
  obtain ⟨hsame, hmatches⟩ :=
    matches_of_check hs hparent hfields hperm hindependent hcheck hcheck'
  refine ⟨hsame, hmatches, fun t ht hgrows fuel => ?_⟩
  exact paired_run_reordered ht (fun f hf => hgrows.has (hparent f hf)) hfields hperm
    hindependent.distinct (types_of_check hs hparent hcheck hgrows.catalog) fuel

/-- The program with its first two methods exchanged. -/
def exchanged (p : Program) : Program where
  fields := p.fields
  methods := match p.methods with
    | d :: e :: ds => e :: d :: ds
    | ds => ds

theorem perm_exchanged (p : Program) : p.exchanged.methods.Perm p.methods := by
  unfold exchanged
  split
  · rename_i d e ds hmethods
    rw [hmethods]
    exact .swap d e ds
  · exact .refl _

/-- `main` prints what `add` makes of the field, and then divides by zero. -/
def overrunning : String :=
  "LET total = 1; DEF add(n: Integer) DO total = total + n; RETURN total; END " ++
    "DEF two() DO RETURN 2; END DEF main() DO print(add(two())); RETURN 6 / (total - 3); END"

theorem agrees_reordered_overrunning : ∃ p typed typed' a b d m, Program.parse overrunning = .ok p ∧
    Store.initial.WellFormed ∧ (Analysis.start .initial none).context.Independent p.methods ∧
    p.exchanged.fields = p.fields ∧ p.exchanged.methods.Perm p.methods ∧
    p.check .initial none = .ok typed a ∧
    p.exchanged.check .initial none = .ok typed' b ∧
    p.run 3 .initial none = .error (.diagnostic d) m ∧ d.position = some ⟨1, 136⟩ ∧
    typed'.fields = typed.fields ∧
    (∀ m ∈ typed.methods, ∃ m' ∈ typed'.methods, m.Matches a.store b.store m') ∧
    Paired Pass.Renumbers Eq (p.run 3 .initial none) (p.exchanged.run 3 .initial none) := by
  have hs := Store.wellFormed_initial
  have haccepted : (Program.parse overrunning).toOption.any (fun p =>
      (Analysis.start .initial none).context.Independent p.methods ∧
        (result (p.check .initial none)).isOk ∧ (result (p.exchanged.check .initial none)).isOk ∧
          p.failsWith 3 (.diagnostic ⟨.divisionByZero, some ⟨1, 136⟩⟩)) = true := by
    decide +kernel
  obtain ⟨p, hp, hprogram⟩ := exists_of_any haccepted
  obtain ⟨hindependent, hok, hok', hfails⟩ := of_decide_eq_true hprogram
  obtain ⟨typed, a, hcheck⟩ := exists_of_result_isOk hok
  obtain ⟨typed', b, hcheck'⟩ := exists_of_result_isOk hok'
  obtain ⟨m, hrun⟩ := exists_of_result (result_of_failsWith hfails)
  have hfields : p.exchanged.fields = p.fields := rfl
  obtain ⟨hsame, hmatches, hruns⟩ :=
    agrees_reordered hs (by simp) hindependent hfields p.perm_exchanged hcheck hcheck'
  exact ⟨p, typed, typed', a, b, _, m, hp, hs, hindependent, hfields, p.perm_exchanged, hcheck,
    hcheck', hrun, rfl, hsame, hmatches, hruns .initial hs (.refl none _) 3⟩

end Program

end BlockScript
