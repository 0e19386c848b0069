import BlockScript.Proofs.Soundness.Methods
import BlockScript.Proofs.Typing.SameTypes

/-!
# Types and the order of methods

Where no two methods share a name and an arity, and none hides a function from outside, a method has
the same types in whatever order the methods stand, as long as the analysis accepts that order.
-/

namespace BlockScript

namespace TypedMethod

/-- The same method, analyzed twice: it has the same signature, and so have all expressions in its
body. -/
structure Matches (S T : Store) (m m' : TypedMethod) : Prop where
  erase : m'.erase = m.erase
  types : (T.function m'.function).types = (S.function m.function).types
  occurrences : m'.occurrences.map Occurrence.types = m.occurrences.map Occurrence.types

theorem key_erase (m : TypedMethod) : m.erase.key = m.key := rfl

variable {Γ : Context} {ms ms' : List TypedMethod} {m d : TypedMethod}

/-- Independent methods are known by their keys. -/
theorem eq_of_key (h : Γ.Independent (ms.map erase)) (hm : m ∈ ms) (hd : d ∈ ms)
    (hkey : d.key = m.key) : d = m := by
  have hkeys := h.distinct
  rw [List.map_map] at hkeys
  exact List.inj_on_of_nodup_map hkeys hd hm hkey

theorem erase_eq_of_key (h : Γ.Independent (ms.map erase))
    (hperm : (ms'.map erase).Perm (ms.map erase)) (hm : m ∈ ms) (hd : d ∈ ms')
    (hkey : d.key = m.key) : d.erase = m.erase := by
  obtain ⟨e, he, herase⟩ := List.mem_map.mp (hperm.subset (List.mem_map_of_mem hd))
  have hkey' : e.key = m.key := by rw [← key_erase, herase, key_erase, hkey]
  rw [← herase, eq_of_key h hm he hkey']

end TypedMethod

namespace Check

open Attempt Pass TypedMethod

variable {n : Analysis} {S T : Store} {ms ms' before after before' after' : List TypedMethod}
  {m m' d : TypedMethod}

/-- What is known of methods that are analyzed one after the other from `n` on, in the store `S` in
the end. -/
structure Judges (n : Analysis) (S : Store) (ms : List TypedMethod) : Prop where
  becomes : n.store.Becomes none S
  checked : TypedProgram.MethodsChecked S n.context ms
  inferred : ∀ m ∈ ms, m.Inferred S
  introduced : ∀ m ∈ ms, Introduces n S m

theorem judges_of_methods {ds : List Method} {typed : List TypedMethod} {b : Analysis}
    (hn : n.Sound) (hown : n.own = none) (hrun : ds.mapM method n = .ok typed b) :
    typed.map TypedMethod.erase = ds ∧ Guards n b ∧
      ∀ S, b.store.Becomes none S → Judges n S typed := by
  obtain ⟨herase, -, -, -, hchecked⟩ := (gives_methods hn).of_ok hrun
  have hinferred := (gives_methods_inferred hn hown).of_ok hrun
  have hintroduced := (gives_methods_introduce hn hown).of_ok hrun
  have hguards := (keeps_mapM (fun d _ => guarded_method d) n).of_ok hrun hn hown
  exact ⟨herase, hguards, fun S hS => ⟨hguards.becomes.trans hS, hchecked S hS.refines,
    hinferred S hS, hintroduced S hS.refines⟩⟩

theorem Judges.key_function (h : Judges n S ms) (hm : m ∈ ms) :
    ((S.function m.function).name, (S.function m.function).arity) = m.key := by
  rw [(h.inferred m hm).name, Function.arity, Store.paramTypes_length (h.introduced m hm).params,
    key]

/-- What is known of the function of a method depends on the key of the method. -/
theorem Judges.known_method (h : Judges n S ms) (hms : n.context.Independent (ms.map erase))
    (hm : m ∈ ms) (hd : d ∈ ms) (r : Option Ty) :
    S.known m.function r d.function =
      if d.key = m.key then r else (S.function d.function).returns := by
  have hiff : d.function = m.function ↔ d.key = m.key := by
    refine ⟨fun hfunction => ?_, fun hkey => by rw [eq_of_key hms hm hd hkey]⟩
    rw [← h.key_function hd, hfunction, h.key_function hm]
  simp only [Store.known, hiff]

/-- What is known of a function that there was before the methods stays as it was. -/
theorem Judges.known_of_lt (h : Judges n S ms) (hm : m ∈ ms) {x : FunctionId}
    (hx : x.index < n.store.functions.size) (r : Option Ty) :
    S.known m.function r x = (n.store.function x).returns := by
  have hne : x ≠ m.function := fun heq =>
    absurd (h.introduced m hm).new (Nat.not_le.mpr (heq ▸ hx))
  rw [Store.known, if_neg hne, h.becomes.spares.function x hx (by simp)]

/-- Two orders of methods: a name that both know where the same method stands has the same type, if
the methods before it in the one order have the same types in both. -/
theorem Judges.known_eq (hn : n.Sound) (h : Judges n S ms) (h' : Judges n T ms')
    (hms : n.context.Independent (ms.map erase)) (hms' : n.context.Independent (ms'.map erase))
    (hkey : m'.key = m.key) (hseen : before ++ [m] ⊆ ms) (hseen' : before' ++ [m'] ⊆ ms')
    (hmatches : ∀ d ∈ before, ∀ d' ∈ ms', d'.key = d.key → Matches S T d d') {name : String}
    {arity : Nat} {x y : FunctionId}
    (hx : (n.context.bindAll (before ++ [m])).functions name arity = some x)
    (hy : (n.context.bindAll (before' ++ [m'])).functions name arity = some y) (r : Option Ty) :
    T.known m'.function r y = S.known m.function r x := by
  have hm : m ∈ ms := hseen (List.mem_append_right _ (List.mem_singleton_self m))
  have hm' : m' ∈ ms' := hseen' (List.mem_append_right _ (List.mem_singleton_self m'))
  obtain hx | ⟨d, hd, hdkey, rfl⟩ := Context.bound_of_bindAll hx
  · obtain hy | ⟨d', hd', hdkey', rfl⟩ := Context.bound_of_bindAll hy
    · cases hx.symm.trans hy
      have hsize := (hn.store.findFunction? hx).1
      rw [h.known_of_lt hm hsize, h'.known_of_lt hm' hsize]
    · cases hdkey'
      cases hx.symm.trans (hms'.fresh d'.erase (List.mem_map_of_mem (hseen' hd')))
  · obtain hy | ⟨d', hd', hdkey', rfl⟩ := Context.bound_of_bindAll hy
    · cases hdkey
      cases hy.symm.trans (hms.fresh d.erase (List.mem_map_of_mem (hseen hd)))
    · rw [h.known_method hms hm (hseen hd), h'.known_method hms' hm' (hseen' hd'), hdkey, hdkey',
        hkey]
      split
      · rfl
      · rename_i hne
        have hd : d ∈ before := by
          refine (List.mem_append.mp hd).resolve_right fun hd => hne ?_
          rw [← hdkey, List.mem_singleton.mp hd]
        have htypes := (hmatches d hd d' (hseen' hd') (hdkey'.trans hdkey.symm)).types
        exact (Function.types_inj.mp htypes).2

/-- The contexts that a method has in two analyses from the same state on. -/
theorem Judges.sameTypes (hn : n.Sound) (h : Judges n S ms) (h' : Judges n T ms') (hm : m ∈ ms)
    (hm' : m' ∈ ms')
    (hfunctions : ∀ name arity x y, (n.context.bindAll before).functions name arity = some x →
      (n.context.bindAll before').functions name arity = some y →
        ∀ r, T.known m'.function r y = S.known m.function r x) :
    SameTypes S T m.function m'.function (n.context.bindAll before)
      (n.context.bindAll before') where
  catalog := h'.becomes.refines.catalog.trans h.becomes.refines.catalog.symm
  members := h'.becomes.refines.members.trans h.becomes.refines.members.symm
  fields t id v hv := by
    rw [Store.membersOf, h.becomes.refines.members, ← Store.membersOf] at hv
    have hsize := hn.store.fields t id v hv
    rw [h.becomes.refines.slot v hsize, h'.becomes.refines.slot v hsize]
  methods t k x hx r := by
    rw [Store.membersOf, h.becomes.refines.members, ← Store.membersOf] at hx
    have hsize := (hn.store.methods t k x hx).1
    rw [h.known_of_lt hm hsize, h'.known_of_lt hm' hsize]
  slots id v w hv hw := by
    rw [Context.slots_bindAll] at hv hw
    cases hv.symm.trans hw
    have hsize := hn.store.findSlot? hv
    rw [h.becomes.refines.slot v hsize, h'.becomes.refines.slot v hsize]
  functions := hfunctions

/-- A method that sees the same types in two orders has the same types in both. -/
theorem Judges.matches {Γ Δ : Context} (h : Judges n S ms) (h' : Judges n T ms') (hm : m ∈ ms)
    (hm' : m' ∈ ms') (herase : m'.erase = m.erase)
    (hsame : SameTypes S T m.function m'.function Γ Δ)
    (hchecked : m.Checked S Γ) (hchecked' : m'.Checked T Δ) : Matches S T m m' := by
  have hparams : m'.params = m.params := congrArg Method.params herase
  have hdeclared : m'.declared = m.declared := congrArg Method.returnType herase
  have hbody : TypedStmt.eraseAll m'.body = TypedStmt.eraseAll m.body := congrArg Method.body herase
  have htypes : (T.function m'.function).params = (S.function m.function).params := by
    have hfound := (h'.introduced m' hm').params
    rw [Store.paramTypes_congr hsame.catalog, hparams, (h.introduced m hm).params] at hfound
    exact (Except.ok.inj hfound).symm
  obtain ⟨declared, hnamed, hreturns, hinfers⟩ := (h.inferred m hm).body
  obtain ⟨declared', hnamed', hreturns', hinfers'⟩ := (h'.inferred m' hm').body
  rw [hdeclared, Store.namedType_congr hsame.catalog, hnamed] at hnamed'
  cases hnamed'
  have hslots : (m'.slots.map fun v => (T.slot v).type) = m.slots.map fun v => (S.slot v).type := by
    rw [← hchecked'.params, htypes, hchecked.params]
  have hoccurrences : m'.occurrences.map Occurrence.types = m.occurrences.map Occurrence.types := by
    refine TypedStmt.occurrencesAll_eq (r := declared) (hsame.declareAll m.params hslots) m.body
      (fun s _ => s.determined) hbody ?_ ?_
    · exact ⟨hchecked.body, hinfers, (h.introduced m hm).declarations⟩
    · exact ⟨hparams ▸ hchecked'.body, hinfers', (h'.introduced m' hm').declarations⟩
  refine ⟨herase, ?_, hoccurrences⟩
  rw [Function.types_inj, hreturns, hreturns', TypedStmt.firstReturnOf?_eq,
    TypedStmt.firstReturnOf?_eq]
  exact ⟨htypes, congrArg (fun r => some ((declared.or r).getD .nil))
    (Occurrence.firstReturned?_congr hoccurrences)⟩

/-- In whatever order independent methods are analyzed, each of them has the same types: a method
sees in both orders what was there before all methods, itself, and methods that stand before it in
the first order. -/
theorem Judges.matches_of_perm (hn : n.Sound) (h : Judges n S ms) (h' : Judges n T ms')
    (hms : n.context.Independent (ms.map erase)) (hperm : (ms'.map erase).Perm (ms.map erase))
    (hm : m ∈ ms) (hm' : m' ∈ ms') (hkey : m'.key = m.key) : Matches S T m m' := by
  have hms' := hms.perm hperm
  -- The methods that have been compared are those before the others in the first order.
  have hrest (before after : List TypedMethod) (hsplit : before ++ after = ms)
      (hmatches : ∀ d ∈ before, ∀ d' ∈ ms', d'.key = d.key → Matches S T d d') :
      ∀ d ∈ after, ∀ d' ∈ ms', d'.key = d.key → Matches S T d d' := by
    induction after generalizing before with
    | nil => nofun
    | cons e after ih =>
      subst hsplit
      have he : e ∈ before ++ e :: after := List.mem_append_right _ List.mem_cons_self
      have hseen : before ++ [e] ⊆ before ++ e :: after := by simp
      have hfirst : ∀ d' ∈ ms', d'.key = e.key → Matches S T e d' := by
        intro d' hd' hkey
        obtain ⟨before', after', rfl⟩ := List.append_of_mem hd'
        have hseen' : before' ++ [d'] ⊆ before' ++ d' :: after' := by simp
        have hchecked := h.checked.of_append
        have hchecked' := h'.checked.of_append
        rw [← Context.bindAll_concat] at hchecked hchecked'
        refine h.matches h' he hd' (erase_eq_of_key hms hperm he hd' hkey) ?_ hchecked
          hchecked'
        exact h.sameTypes hn h' he hd' fun name arity x y hx hy r =>
          h.known_eq hn h' hms hms' hkey hseen hseen' hmatches hx hy r
      refine List.forall_mem_cons.mpr ⟨hfirst, ih (before ++ [e]) (by simp) ?_⟩
      exact List.forall_mem_append.mpr ⟨hmatches, List.forall_mem_singleton.mpr hfirst⟩
  exact hrest [] ms rfl nofun m hm m' hm' hkey

/-! ## Programs -/

/-- How a program is accepted: its fields come first, and then its methods. -/
theorem exists_judges {p : Program} {typed : TypedProgram} {a b : Analysis} (ha : a.Sound)
    (hown : a.own = none) (h : program p a = .ok typed b) :
    ∃ n, p.fields.mapM field a = .ok typed.fields n ∧ n.Sound ∧
      n.context.functions = a.context.functions ∧ typed.methods.map TypedMethod.erase = p.methods ∧
        Judges n b.store typed.methods := by
  obtain ⟨fields, n, hfields, h⟩ := bind_eq_ok.mp h
  obtain ⟨methods, c, hmethods, h⟩ := bind_eq_ok.mp h
  obtain ⟨_, d, hentry, h⟩ := bind_eq_ok.mp h
  cases h
  obtain ⟨-, -, hcontext, -⟩ := (gives_fields ha).of_ok hfields
  have hfieldsGuarded : Keeps Guarded (p.fields.mapM field) :=
    keeps_mapM fun d _ => keeps_guarded (upholds_careful.keeps_binding d).locate
  have hn := (hfieldsGuarded a).of_ok hfields ha hown
  obtain ⟨herase, hguards, hjudges⟩ := judges_of_methods hn.sound (hn.own.trans hown) hmethods
  obtain ⟨-, hstore, -⟩ := (gives_entryPoint hguards.sound).of_ok hentry
  refine ⟨n, hfields, hn.sound, ?_, herase, ?_⟩
  · rw [hcontext, Context.functions_declareFields]
  · rw [hstore]
    exact hjudges _ ⟨.refl _, .refl _ _⟩

end Check

namespace Program

open TypedMethod

variable {s : Store} {parent : Option FrameId} {p q : Program} {typed typed' : TypedProgram}
  {a b : Analysis}

/-- Two programs with the same fields and the same independent methods: if both are accepted, all
their fields and methods have the same types. -/
theorem matches_of_check (hs : s.WellFormed) (hparent : ∀ f ∈ parent, s.Has f)
    (hfields : q.fields = p.fields) (hperm : q.methods.Perm p.methods)
    (hindependent : (Analysis.start s parent).context.Independent p.methods)
    (hcheck : p.check s parent = .ok typed a) (hcheck' : q.check s parent = .ok typed' b) :
    typed'.fields = typed.fields ∧
      ∀ m ∈ typed.methods, ∃ m' ∈ typed'.methods, m.Matches a.store b.store m' := by
  have hstart := Analysis.sound_start hs hparent
  obtain ⟨n, hrun, hn, hfunctions, herase, hjudges⟩ := Check.exists_judges hstart rfl hcheck
  obtain ⟨n', hrun', -, -, herase', hjudges'⟩ := Check.exists_judges hstart rfl hcheck'
  rw [hfields, hrun] at hrun'
  obtain ⟨hsame, rfl⟩ := EStateM.Result.ok.inj hrun'
  refine ⟨hsame.symm, fun m hm => ?_⟩
  have hmethods : n.context.Independent (typed.methods.map erase) := by
    rw [herase]
    exact ⟨hindependent.distinct, fun d hd => hfunctions ▸ hindependent.fresh d hd⟩
  rw [← herase, ← herase'] at hperm
  obtain ⟨m', hm', hmatch⟩ := List.mem_map.mp (hperm.symm.subset (List.mem_map_of_mem hm))
  have hkey : m'.key = m.key := congrArg Method.key hmatch
  exact ⟨m', hm', hjudges.matches_of_perm hn hjudges' hmethods hperm hm hm' hkey⟩

end Program

end BlockScript
