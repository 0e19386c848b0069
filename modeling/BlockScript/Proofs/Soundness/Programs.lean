import BlockScript.Proofs.Soundness.Methods
import BlockScript.Proofs.Typing.CheckingProgram
import BlockScript.Toolchain

/-!
# Programs keep the invariant

An accepted program is run in two phases: while its fields are initialised it has no functions yet,
and then its methods are defined and `main` is called. What is seen in all of this is sound.
-/

namespace BlockScript

open Attempt Pass

/-! ## Fields -/

theorem Context.functions_declareFields (Γ : Context) (fields : List TypedBinding) :
    (Γ.declareFields fields).functions = Γ.functions := by
  induction fields generalizing Γ with
  | nil => rfl
  | cons b fields ih => exact ih (Γ.declare b.name b.slot)

namespace Setting

variable {σ : Setting} {w : Watched} {Γ : Context} {call : Watch.Call}

/-- Fields are declared in the scope of the program, which nothing is known of while they are. -/
theorem safe_fields (hσ : σ.Lawful) (hcall : σ.CallsSafe call)
    (hglobals : ∀ V Δ, σ.globals.Agrees V σ.leads Δ) {fields : List TypedBinding}
    (hw : σ.Ready w) (hΓ : σ.Agrees Γ w)
    (hfields : TypedProgram.FieldsChecked σ.final Γ fields)
    (htotal : σ.total → ∀ b ∈ fields, b.Everywhere σ.Compares TypedBinding.HasValue) :
    σ.Safe true (fields.forM (Watch.field call)) w fun _ v =>
      σ.Agrees (Γ.declareFields fields) v := by
  induction fields generalizing Γ w with
  | nil => exact safe_pure hw hΓ
  | cons b fields ih =>
    obtain ⟨hb, hrest⟩ := hfields
    have hfirst : σ.Safe true (Watch.field call b) w fun _ v =>
        σ.Agrees (Γ.declare b.name b.slot) v := by
      refine ((safe_initial hσ hcall hw hΓ hb fun ht => htotal ht b List.mem_cons_self).locate
        b.position).bind_declares fun r v hv hwv hr => ?_
      exact safe_make hv (hΓ.evolves hw hwv) b.name r.2 hr (hglobals _ _)
    refine hfirst.bind fun _ v hv _ hΓ' => ?_
    exact ih hv hΓ' hrest fun ht d hd => htotal ht d (List.mem_cons_of_mem b hd)

/-- The call of `main`. -/
theorem safe_main (hσ : σ.Lawful) (hw : σ.Ready w) (hΓ : σ.Agrees Γ w)
    (hmain : ∃ f, Γ.functions "main" 0 = some f ∧ (σ.final.function f).params = [] ∧
      (σ.final.function f).returns = some .integer) (fuel : Nat) :
    σ.Safe false (do
        let f ← Watch.lift (Pass.ask fun s scope => s.lookupFunction scope "main" 0)
        Watch.lift (Pass.note .entryPointInvoked)
        Watch.invoke σ.code fuel f []) w fun v _ => σ.Fits v .integer := by
  obtain ⟨f, hf, hparams, hreturns⟩ := hmain
  obtain ⟨g, hg, hleads⟩ := hΓ.functions "main" 0 f hf
  have hfind : w.machine.store.findFunction? w.machine.scope "main" 0 = some g := hg
  have hkeyed := hw.valid.wellFormed.findFunction? hfind
  refine (safe_found hw (Store.lookupFunction_eq_ok.mpr hfind)).bind ?_
  rintro g _ hw - ⟨rfl, rfl⟩
  have hnote := safe_lift (P := fun _ => True) hw (keeps_note .entryPointInvoked) fun _ =>
    ends_modify.mpr ⟨rfl, trivial⟩
  refine hnote.bind fun _ u hu hvu _ => ?_
  have hkeyed' := hvu.machine.grows.toRefines.keyed hkeyed
  have hcount : ([] : List Value).length = (u.machine.store.function g).arity :=
    congrArg Prod.snd hkeyed'.2
  have hmeans := hσ.means "main" 0 f g hleads
  refine (safe_invoke hσ fuel f g [] u hu hkeyed'.1 hcount hmeans fun _ => ?_).imp
    fun value _ hvalue => hvalue.fits (.inr hreturns)
  rw [hparams]
  exact .nil

end Setting

/-! ## Where analysis and run begin -/

section

variable {s : Store} {parent : Option FrameId} (hs : s.WellFormed) (hparent : ∀ f ∈ parent, s.Has f)

include hs hparent

theorem Analysis.slots_start (id : String) :
    (Analysis.start s parent).context.slots id = parent.bind (s.findSlot? · id) :=
  Store.findSlot?_createRoot hs hparent (show ∀ m c, Body.absent ≠ .method m c from nofun) id

theorem Machine.slots_start (id : String) :
    (Machine.start s parent).context.slots id = parent.bind (s.findSlot? · id) :=
  Store.findSlot?_createRoot hs hparent (show ∀ m c, Body.print ≠ .method m c from nofun) id

theorem Analysis.functions_start (name : String) (arity : Nat) :
    (Analysis.start s parent).context.functions name arity =
      if (name, arity) = ((s.function Store.rangeId).name, (s.function Store.rangeId).arity) then
        some Store.rangeId
      else if (name, arity) = ("print", 1) then some s.printId
      else parent.bind (s.findFunction? · name arity) :=
  Store.findFunction?_createRoot hs hparent (show ∀ m c, Body.absent ≠ .method m c from nofun) name
    arity

theorem Machine.functions_start (name : String) (arity : Nat) :
    (Machine.start s parent).context.functions name arity =
      if (name, arity) = ((s.function Store.rangeId).name, (s.function Store.rangeId).arity) then
        some Store.rangeId
      else if (name, arity) = ("print", 1) then some s.printId
      else parent.bind (s.findFunction? · name arity) :=
  Store.findFunction?_createRoot hs hparent (show ∀ m c, Body.print ≠ .method m c from nofun) name
    arity

end

/-! ## Programs -/

/-- Only an unknown type keeps methods from being defined. -/
theorem Run.ends_defineMethods (ms : List Method) (a : Machine) :
    Ends (ms.forM defineMethod) a (fun _ _ => True) fun e _ => e.IsBenign := by
  induction ms generalizing a with
  | nil => exact ends_pure.mpr trivial
  | cons m ms ih =>
    refine Ends.bind (Q := fun _ _ => True) ?_ fun _ b _ => ih b
    refine ends_bind.mpr (ends_bind.mpr (ends_get.mpr (ends_ofExcept.mpr ?_)))
    split
    · exact trivial
    · rename_i cause herror
      rcases Store.bind_eq_error.mp herror with hparams | ⟨_, -, hrest⟩
      · exact Store.paramTypes_error hparams
      · rcases Store.bind_eq_error.mp hrest with hreturns | ⟨_, -, hpure⟩
        · exact Store.typeOrAny_error hreturns
        · cases hpure

/-- What a name stands for before there are methods: the same function of the language or of a scope
around the program in the analysis and in the run. -/
structure BuiltIn (s t : Store) (parent : Option FrameId) (name : String) (arity : Nat)
    (f g : FunctionId) : Prop where
  analysis : (Analysis.start s parent).context.functions name arity = some f
  run : (Machine.start t parent).context.functions name arity = some g
  same : (f = g ∧ f.index < s.functions.size) ∨ (f, g) = (s.printId, t.printId)

/-- A program that the analysis has accepted over the store `s`, with the last store `final`, and a
store `t` that it may run on. -/
structure Accepted (μ : Strictness) (s final t : Store) (parent : Option FrameId)
    (p : TypedProgram) : Prop where
  known : s.WellFormed
  around : ∀ f ∈ parent, s.Has f
  run : t.WellFormed
  grows : s.Grows none t
  refines : s.Refines final
  print : final.function s.printId = Store.printFunction .absent
  checked : p.Checked final (Analysis.start s parent).context
  initial : μ.strict → s = .initial ∧ parent = none
  consistent : μ.strict → p.Consistent final
  total : μ.total → p.IsTotal (fun e => μ.benign → e.ComparesKnown) final

namespace Accepted

variable {μ : Strictness} {s final t : Store} {parent : Option FrameId} {p : TypedProgram}

/-- The setting in which fields are initialised. -/
def setting (μ : Strictness) (s final t : Store) (parent : Option FrameId) : Setting where
  toStrictness := μ
  known := s
  final := final
  code _ := none
  root := ⟨t.frames.size⟩
  globals := ⟨fun _ => none, fun _ _ => none⟩
  printing := (s.printId, t.printId)
  leads := BuiltIn s t parent
  before := []

/-- The setting in which the methods of the program are called. -/
def callSetting (μ : Strictness) (s final t : Store) (parent : Option FrameId) (p : TypedProgram)
    (fuel : Nat) : Setting :=
  let w := p.initialised fuel t parent
  (setting μ s final t parent).calling ((Analysis.start s parent).context.declareFields p.fields)
    p.methods w.machine.store.functions.size w.trace

/-- What is seen in a run. -/
structure Sees (μ : Strictness) (s final t : Store) (parent : Option FrameId) (p : TypedProgram)
    (fuel : Nat) (u : Watched) : Prop where
  trace : SoundTrace μ.total s.slots.size final u.trace
  fields : (setting μ s final t parent).Dispatched (p.initialised fuel t parent).trace
  calls : (callSetting μ s final t parent p fuel).Dispatched u.trace

section

variable (h : Accepted μ s final t parent p)

include h

theorem has_parent : ∀ f ∈ parent, t.Has f := fun f hf => h.grows.has (h.around f hf)

theorem lawful : (setting μ s final t parent).Lawful where
  refines := h.refines
  initial hs := (h.initial hs).1
  print _ := h.print
  means _ _ _ _ hleads _ := hleads.same.imp_right .inl
  fresh := nofun
  methods := nofun
  total := nofun

theorem sound_start : (Machine.start t parent).Sound := Machine.sound_start h.run h.has_parent

theorem ready_start : (setting μ s final t parent).Ready ⟨Machine.start t parent, []⟩ := by
  have hstands : ∀ slot v, (setting μ s final t parent).Stands [] slot v →
      slot = v ∧ v.index < s.slots.size := by
    rintro slot v (⟨_, ⟨⟩⟩ | hknown)
    exact hknown
  refine ⟨?_, h.sound_start.scope⟩
  exact {
    wellFormed := h.sound_start.store
    known := h.grows.toRefines.trans (Store.grows_createRoot t parent .print).toRefines
    resolves := trivial
    typed := nofun
    dispatched := ⟨[], rfl, nofun⟩
    bound := fun slot v hv => Nat.lt_of_lt_of_le (hstands slot v hv).2 h.grows.slots
    unique := fun slot slot' v hv hv' => (hstands slot v hv).1.trans (hstands slot' v hv').1.symm
    values := fun slot v hv hs => by
      -- the initial store has no variables
      have hlt := (hstands slot v hv).2
      rw [(h.initial hs).1] at hlt
      exact absurd hlt (Nat.not_lt_zero v.index)
    root := Store.has_createRoot t parent .print
    globals := ⟨nofun, nofun⟩
    function := nofun
    methods := nofun
    print := fun _ => by
      refine ⟨?_, congrArg Function.body (Store.function_printId t parent .print)⟩
      exact (Store.functions_size_createRoot t parent .print).symm ▸ Nat.lt_succ_self _ }

/-- Analysis and run begin in scopes where the same names are known. -/
theorem agrees_start : (setting μ s final t parent).Agrees (Analysis.start s parent).context
    ⟨Machine.start t parent, []⟩ := by
  refine ⟨fun id v hv => ?_, fun name arity f hf => ?_⟩
  · rw [Analysis.slots_start h.known h.around] at hv
    obtain ⟨f, rfl, hf⟩ := Option.bind_eq_some_iff.mp hv
    refine ⟨v, ?_, .inr ⟨rfl, h.known.findSlot? hf⟩⟩
    refine (Machine.slots_start h.run h.has_parent id).trans ?_
    rw [Option.bind_some, h.grows.findSlot? h.known h.run (h.around f rfl) nofun]
    exact hf
  · have hrun := Machine.functions_start h.run h.has_parent name arity
    have hrange := h.grows.toRefines.function Store.rangeId h.known.range
    rw [Function.arity, hrange.name, hrange.params, ← Function.arity] at hrun
    suffices hfound : ∃ g, (Machine.start t parent).context.functions name arity = some g ∧
        ((f = g ∧ f.index < s.functions.size) ∨ (f, g) = (s.printId, t.printId)) by
      obtain ⟨g, hg, hsame⟩ := hfound
      exact ⟨g, hg, hf, hg, hsame⟩
    rw [Analysis.functions_start h.known h.around] at hf
    rw [hrun]
    split at hf
    · cases hf
      exact ⟨Store.rangeId, if_pos ‹_›, .inl ⟨rfl, h.known.range⟩⟩
    rename_i hne
    rw [if_neg hne]
    split at hf
    · cases hf
      exact ⟨t.printId, if_pos ‹_›, .inr rfl⟩
    rename_i hne'
    rw [if_neg hne']
    obtain ⟨e, rfl, he⟩ := Option.bind_eq_some_iff.mp hf
    refine ⟨f, ?_, .inl ⟨rfl, (h.known.findFunction? he).1⟩⟩
    rw [Option.bind_some, h.grows.findFunction? h.known h.run (h.around e rfl) nofun]
    exact he

theorem safe_fields (fuel : Nat) : (setting μ s final t parent).Safe true
    (Watch.fields fuel p) ⟨Machine.start t parent, []⟩
    fun _ v => (setting μ s final t parent).Agrees
      ((Analysis.start s parent).context.declareFields p.fields) v :=
  Setting.safe_fields h.lawful (Setting.safe_invoke h.lawful fuel) (fun _ _ => ⟨nofun, nofun⟩)
    h.ready_start h.agrees_start h.checked.fields fun ht => (h.total ht).fields

/-- If types count, a method has the types of what it hides. -/
theorem types_eq (hs : μ.strict) {m : TypedMethod} (hm : m ∈ p.methods) {f : FunctionId}
    (hf : ((Analysis.start s parent).context.declareFields p.fields).functions m.name
      m.params.length = some f ∨ ∃ d ∈ p.methods, d.key = m.key ∧ d.function = f) :
    (final.function m.function).types = (final.function f).types := by
  have hconsistent := h.consistent hs
  rcases hf with hstart | ⟨d, hd, hkey, rfl⟩
  · rw [Context.functions_declareFields, Analysis.functions_start h.known h.around] at hstart
    have hrange := h.refines.function Store.rangeId h.known.range
    have hprint := h.print
    obtain ⟨rfl, rfl⟩ := h.initial hs
    split at hstart
    · rename_i hkey
      cases hstart
      rw [hconsistent.range m hm hkey, Function.types, hrange.params,
        hrange.returns.resolve_left nofun]
      rfl
    · split at hstart
      · rename_i hkey
        cases hstart
        rw [hconsistent.print m hm hkey, hprint]
        rfl
      · cases hstart
  · exact hconsistent.methods m hm d hd hkey.symm

theorem lawful_call {fuel : Nat}
    (hfirst : t.functions.size < (p.initialised fuel t parent).machine.store.functions.size) :
    (callSetting μ s final t parent p fuel).Lawful where
  refines := h.refines
  initial hs := (h.initial hs).1
  print _ := h.print
  means name arity f g hleads hs := by
    cases hlatest : TypedMethod.latest? p.methods (name, arity) with
    | none => exact (hleads.known hlatest).same.imp_right .inl
    | some m =>
      obtain ⟨hm, hkey⟩ := TypedMethod.mem_of_latest? hlatest
      cases hkey
      exact .inr (.inr ⟨m, hleads.latest m hlatest, h.types_eq hs hm hleads.bound⟩)
  fresh g m hm := by
    obtain ⟨i, rfl, -⟩ := Watch.Code.ofMethods_eq_some.mp hm
    have hknown := h.grows.functions
    refine ⟨?_, ?_⟩
    · change s.functions.size ≤ _ + i
      omega
    · intro hprint
      have hindex : _ + i = t.functions.size := congrArg FunctionId.index hprint
      omega
  methods g m hm := by
    obtain ⟨i, -, hi⟩ := Watch.Code.ofMethods_eq_some.mp hm
    obtain ⟨before, after, hsplit, hchecked⟩ := h.checked.methods.split (List.mem_of_getElem? hi)
    refine ⟨_, hchecked, fun V Δ hΔ => ?_⟩
    unfold callSetting Setting.calling at hΔ ⊢
    dsimp only at hΔ ⊢
    rw [hsplit] at hΔ ⊢
    exact hΔ.of_before
  total ht g m hm := by
    obtain ⟨i, -, hi⟩ := Watch.Code.ofMethods_eq_some.mp hm
    exact (h.total ht).methods m (List.mem_of_getElem? hi)

/-- The whole run of an accepted program. -/
theorem ends_program (fuel : Nat) :
    Ends (Watch.program fuel p) ⟨Machine.start t parent, []⟩
      (fun v u => Sees μ s final t parent p fuel u ∧ (setting μ s final t parent).Fits v .integer)
      fun e u => Sees μ s final t parent p fuel u ∧ (μ.benign → e.IsBenign) := by
  refine Ends.bind ((h.safe_fields fuel).with_run.imp (fun _ _ hv => hv) ?_) ?_
  · rintro e v ⟨he, hrun⟩
    have hinitialised : p.initialised fuel t parent = v := by
      rw [TypedProgram.initialised, EStateM.run, hrun]
    refine ⟨⟨he.trace, hinitialised ▸ he.dispatched, [], ?_, nofun⟩, he.benign⟩
    exact congrArg Watched.trace hinitialised.symm
  rintro _ v ⟨⟨hv, hwv, hΓ⟩, hrun⟩
  have hinitialised : p.initialised fuel t parent = v := by
    rw [TypedProgram.initialised, EStateM.run, hrun]
  have hfields := hv.valid.dispatched
  have htrace : v.trace = (p.initialised fuel t parent).trace := by rw [hinitialised]
  refine Watch.ends_look ?_
  have hdefine : Ends ((p.methods.map TypedMethod.erase).forM Run.defineMethod) v.machine
      (fun _ b => Run.Defines v.machine (p.methods.map TypedMethod.erase) b)
      fun e b => Sees μ s final t parent p fuel ⟨b, v.trace⟩ ∧ (μ.benign → e.IsBenign) := by
    refine (Run.gives_defineMethods hv.sound _).ends ?_
    refine (Run.ends_defineMethods _ v.machine).imp (fun _ _ _ => trivial) fun _ _ he => ?_
    exact ⟨⟨hv.valid.trace, hinitialised ▸ hfields, [], htrace, nofun⟩, fun _ => he⟩
  rw [Watch.lift_defineMethods]
  refine Ends.bind (Q := fun _ u => u.trace = v.trace ∧
    Run.Defines v.machine (p.methods.map TypedMethod.erase) u.machine)
    (Watch.ends_lift.mpr (hdefine.imp (fun _ _ hb => ⟨rfl, hb⟩) fun _ _ he => he)) ?_
  rintro _ ⟨b, _⟩ ⟨rfl, hb⟩
  have hfirst : t.functions.size < v.machine.store.functions.size := by
    refine Nat.lt_of_lt_of_le ?_ hwv.machine.grows.functions
    exact (Store.functions_size_createRoot t parent .print).symm ▸ Nat.lt_succ_self _
  obtain ⟨hready, hagrees⟩ := hv.calling hwv.machine.scope hΓ hb
  subst hinitialised
  have hmain := Setting.safe_main (h.lawful_call hfirst) hready hagrees h.checked.main fuel
  refine Ends.imp hmain ?_ fun _ _ he => ⟨⟨he.trace, hfields, he.dispatched⟩, he.benign⟩
  rintro value u ⟨hu, -, hvalue⟩
  exact ⟨⟨hu.valid.trace, hfields, hu.valid.dispatched⟩, hvalue⟩

end

end Accepted

/-! ## Accepted programs -/

section

variable {μ : Strictness} {p : Program} {s t : Store} {parent : Option FrameId}
  {typed : TypedProgram} {a : Analysis}

theorem Analysis.sound_start (hs : s.WellFormed) (hparent : ∀ f ∈ parent, s.Has f) :
    (Analysis.start s parent).Sound :=
  ⟨hs.createRoot hparent nofun, Store.has_createRoot s parent .absent⟩

/-- What is known of a program that has been accepted. -/
theorem Program.settled_of_check (hs : s.WellFormed) (hparent : ∀ f ∈ parent, s.Has f)
    (hcheck : p.check s parent = .ok typed a) :
    Check.Settled (Analysis.start s parent) p typed a :=
  (Check.gives_program (Analysis.sound_start hs hparent) p).of_ok hcheck

theorem Accepted.of_check (hs : s.WellFormed) (hparent : ∀ f ∈ parent, s.Has f)
    (hcheck : p.check s parent = .ok typed a) (ht : t.WellFormed) (hst : s.Grows none t)
    (hinitial : μ.strict → s = .initial ∧ parent = none)
    (hconsistent : μ.strict → typed.Consistent a.store)
    (htotal : μ.total → typed.IsTotal (fun e => μ.benign → e.ComparesKnown) a.store) :
    Accepted μ s a.store t parent typed := by
  have hsettled := Program.settled_of_check hs hparent hcheck
  have hrefines := hsettled.extension.grows.toRefines
  have hprint := Store.function_printId s parent .absent
  have hsize : s.printId.index < (Analysis.start s parent).store.functions.size :=
    (Store.functions_size_createRoot s parent .absent).symm ▸ Nat.lt_succ_self _
  exact {
    known := hs
    around := hparent
    run := ht
    grows := hst
    refines := (Store.grows_createRoot s parent .absent).toRefines.trans hrefines
    print := by
      rw [← hprint]
      refine (hrefines.function s.printId hsize).eq ?_
      change ((s.createRoot parent .absent).2.function s.printId).returns ≠ none
      rw [hprint]
      nofun
    checked := hsettled.checked
    initial := hinitial
    consistent := hconsistent
    total := htotal }

theorem Accepted.sees (h : Accepted μ s a.store t parent typed) (fuel : Nat) :
    ∃ w, w.trace = typed.trace fuel t parent ∧ Sees μ s a.store t parent typed fuel w := by
  have hends := h.ends_program fuel
  unfold Ends at hends
  unfold TypedProgram.trace TypedProgram.watch EStateM.run
  cases hrun : Watch.program fuel typed ⟨Machine.start t parent, []⟩ with
  | ok v w =>
    rw [hrun] at hends
    exact ⟨w, rfl, hends.1⟩
  | error e w =>
    rw [hrun] at hends
    exact ⟨w, rfl, hends.1⟩

end

namespace Program

/-- Whether a text is a program that the analysis accepts over the initial store, with findings as
`P` says. -/
def isAccepted (text : String) (P : TypedProgram → Analysis → Bool) : Bool :=
  match Program.parse text with
  | .ok p =>
    match p.check .initial none with
    | .ok typed a => P typed a
    | .error _ _ => false
  | .error _ => false

theorem exists_of_isAccepted {text : String} {P : TypedProgram → Analysis → Bool}
    (h : isAccepted text P = true) : ∃ p typed a, Program.parse text = .ok p ∧
      p.check .initial none = .ok typed a ∧ P typed a = true := by
  unfold isAccepted at h
  split at h
  · rename_i p hp
    split at h
    · rename_i typed a ha
      exact ⟨p, typed, a, hp, ha, h⟩
    · cases h
  · cases h

end Program

end BlockScript
