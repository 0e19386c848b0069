import BlockScript.Proofs.Pass.Evolution

/-!
# Contexts

What all names stand for at one point of a pass. The context of the scope changes with what is
declared and defined there, and the contexts of older scopes do not change.
-/

namespace BlockScript

/-- What the names stand for at a place in a program. -/
@[ext]
structure Context where
  slots : String → Option SlotId
  functions : String → Nat → Option FunctionId

namespace Context

def declare (Γ : Context) (name : String) (v : SlotId) : Context :=
  { Γ with slots := fun id => if id = name then some v else Γ.slots id }

/-- The context inside a method: parameters are declared in order. -/
def declareAll (Γ : Context) : List Param → List SlotId → Context
  | p :: ps, v :: vs => (Γ.declare p.name v).declareAll ps vs
  | _, _ => Γ

def define (Γ : Context) (name : String) (arity : Nat) (f : FunctionId) : Context :=
  { Γ with
    functions := fun id n => if (id, n) = (name, arity) then some f else Γ.functions id n }

/-- The context with methods defined in order, whose functions have numbers from `n` on. -/
def defineAll (Γ : Context) : List Method → (n : Nat) → Context
  | [], _ => Γ
  | m :: ms, n => (Γ.define m.name m.params.length ⟨n⟩).defineAll ms (n + 1)

end Context

/-- The name and the number of parameters, by which a method is called. -/
def Method.key (d : Method) : String × Nat := (d.name, d.params.length)

/-- Methods whose order does not matter: each has a key of its own, and without them nothing is
known under it. -/
structure Context.Independent (Γ : Context) (ds : List Method) : Prop where
  distinct : (ds.map Method.key).Nodup
  fresh : ∀ d ∈ ds, Γ.functions d.name d.params.length = none

instance (Γ : Context) (ds : List Method) : Decidable (Γ.Independent ds) :=
  decidable_of_iff _ ⟨fun h => ⟨h.1, h.2⟩, fun h => And.intro h.distinct h.fresh⟩

theorem Context.Independent.perm {Γ : Context} {ds ds' : List Method} (h : Γ.Independent ds)
    (hperm : ds'.Perm ds) : Γ.Independent ds' where
  distinct := (hperm.map Method.key).nodup_iff.mpr h.distinct
  fresh d hd := h.fresh d (hperm.subset hd)

/-- What names stand for in a frame. -/
def Store.context (s : Store) (f : FrameId) : Context := ⟨s.findSlot? f, s.findFunction? f⟩

namespace Pass

open Store

variable {ρ : Type} {a b : Pass ρ} {declares : Bool}

/-- What names stand for in the current scope. -/
def context (a : Pass ρ) : Context := a.store.context a.scope

/-- In a scope that is not inside the one where variables are declared, names keep their meaning. -/
theorem Evolves.context_eq (h : a.Evolves declares b) (ha : a.Sound) {f : FrameId}
    (hf : a.store.Has f) (hf' : declares = true → f.index < a.scope.index) :
    b.store.context f = a.store.context f := by
  refine Context.ext (funext fun id => ?_) (funext fun name => funext fun arity => ?_)
  · refine h.grows.findSlot? ha.store h.sound.store hf (fun o ho => ?_) id
    unfold declaring at ho
    split at ho
    · cases ho
      exact hf' ‹_›
    · cases ho
  · exact h.findFunction? ha hf name arity

theorem Evolves.context (h : a.Evolves false b) (ha : a.Sound) : b.context = a.context := by
  rw [Pass.context, h.scope]
  exact h.context_eq ha ha.scope nofun

theorem context_enterFrame (h : a.Sound) {f : FrameId} (hf : a.store.Has f) :
    (a.enterFrame f).context = a.store.context f := by
  have hparent : ∀ p ∈ some f, a.store.Has p := by simpa using hf
  refine Context.ext (funext fun id => ?_) (funext fun name => funext fun arity => ?_)
  · exact findSlot?_createFrame h.store hparent id
  · exact findFunction?_createFrame h.store hparent name arity

theorem context_define (h : a.Sound) (slot : Slot) :
    Pass.context { a with store := (a.store.defineSlot a.scope slot).2 } =
      a.context.declare slot.name ⟨a.store.slots.size⟩ := by
  refine Context.ext (funext fun id => ?_) (funext fun name => funext fun arity => ?_)
  · exact findSlot?_defineSlot h.store h.scope slot id
  · exact (Evolves.define h slot).findFunction? h h.scope name arity

theorem context_defineFunction (h : a.Sound) {fn : Function}
    (hfn : ∀ m c, fn.body = .method m c → a.store.Has c) :
    Pass.context { a with store := (a.store.defineFunction a.scope fn).2 } =
      a.context.define fn.name fn.arity ⟨a.store.functions.size⟩ := by
  refine Context.ext (funext fun id => ?_) (funext fun name => funext fun arity => ?_)
  · exact findSlot?_defineFunction h.store a.scope hfn a.scope id
  · exact findFunction?_defineFunction h.store h.scope hfn name arity

end Pass

/-! ## Agreement -/

/-- What a name stands for in `Γ` is related to what it stands for in `Δ`. -/
structure Context.Agrees (V : SlotId → SlotId → Prop)
    (F : String → Nat → FunctionId → FunctionId → Prop) (Γ Δ : Context) : Prop where
  slots : ∀ id v, Γ.slots id = some v → ∃ w, Δ.slots id = some w ∧ V v w
  functions : ∀ name arity f, Γ.functions name arity = some f →
    ∃ g, Δ.functions name arity = some g ∧ F name arity f g

namespace Context.Agrees

variable {V V' : SlotId → SlotId → Prop} {F F' : String → Nat → FunctionId → FunctionId → Prop}
  {Γ Δ : Context}

theorem imp (h : Agrees V F Γ Δ) (hV : ∀ v w, V v w → V' v w)
    (hF : ∀ name arity f g, F name arity f g → F' name arity f g) : Agrees V' F' Γ Δ where
  slots id v hv := by
    obtain ⟨w, hw, hvw⟩ := h.slots id v hv
    exact ⟨w, hw, hV v w hvw⟩
  functions name arity f hf := by
    obtain ⟨g, hg, hfg⟩ := h.functions name arity f hf
    exact ⟨g, hg, hF name arity f g hfg⟩

theorem declare (h : Agrees V F Γ Δ) (name : String) {v w : SlotId} (hvw : V v w) :
    Agrees V F (Γ.declare name v) (Δ.declare name w) := by
  refine ⟨fun id u hu => ?_, h.functions⟩
  dsimp only [Context.declare] at hu ⊢
  split at hu
  · rename_i hid
    cases hu
    exact ⟨w, if_pos hid, hvw⟩
  · rename_i hid
    rw [if_neg hid]
    exact h.slots id u hu

end Context.Agrees

end BlockScript
