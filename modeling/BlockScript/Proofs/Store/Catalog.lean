import BlockScript.Embedding
import BlockScript.Proofs.Pass.Outcome
import BlockScript.Proofs.Soundness.Values
import BlockScript.Toolchain

/-!
# The catalog as a registry

Hosts enter types in the catalog and take them out again, types of the same name and types named
like built-in ones among them. Whatever they ask for and whatever is refused, the built-in names
stay, each type stands under its own name, and each other name belongs to the type that was entered
last and has not been taken out since.
-/

namespace BlockScript

open Attempt

/-- What a host asks of the catalog. -/
inductive Registration
  | register (type : Ty)
  | unregister (type : Ty)
deriving DecidableEq

namespace Registration

def outcome : Registration → Store → Except Misuse Store
  | register type, s => s.register type
  | unregister type, s => s.unregister type

/-- Asks for the change of the catalog and makes it if it is granted. -/
def perform (request : Registration) : Build Unit := do
  set (← Build.ofMisuse (request.outcome (← get)))

/-- What has been asked, the latest first, each with whether it was granted. -/
abbrev Record := List (Registration × Bool)

/-- The last type that was registered under the name is this one, and it has not been unregistered
since. -/
def Holds (record : Record) (name : String) (type : Ty) : Prop :=
  type.name = name ∧ ∃ later earlier, record = later ++ (register type, true) :: earlier ∧
    (∀ u, u.name = name → (register u, true) ∉ later) ∧ (unregister type, true) ∉ later

variable {record : Record} {name : String} {t u : Ty} {request : Registration}

theorem not_holds_nil : ¬ Holds [] name t := by
  rintro ⟨-, later, earlier, h, -⟩
  simp at h

/-- The latest request is the registration itself, or it has left it in force. -/
theorem holds_cons {granted : Bool} : Holds ((request, granted) :: record) name t ↔
    t.name = name ∧ (request, granted) = (register t, true) ∨
      Holds record name t ∧ (∀ u, u.name = name → (request, granted) ≠ (register u, true)) ∧
        (request, granted) ≠ (unregister t, true) := by
  constructor
  · rintro ⟨hname, later, earlier, h, hregister, hunregister⟩
    cases later with
    | nil => exact .inl ⟨hname, (List.cons.inj h).1⟩
    | cons c later =>
      obtain ⟨rfl, rfl⟩ := List.cons.inj h
      refine .inr ⟨⟨hname, later, earlier, rfl, fun u hu hmem => ?_, fun hmem => ?_⟩, ?_, ?_⟩
      · exact hregister u hu (List.mem_cons_of_mem _ hmem)
      · exact hunregister (List.mem_cons_of_mem _ hmem)
      · exact fun u hu he => hregister u hu (he ▸ List.mem_cons_self)
      · exact fun he => hunregister (he ▸ List.mem_cons_self)
  · rintro (⟨hname, h⟩ | ⟨⟨hname, later, earlier, rfl, hregister, hunregister⟩, hr, hu⟩)
    · exact ⟨hname, [], record, by rw [h]; rfl, fun _ _ => List.not_mem_nil, List.not_mem_nil⟩
    · refine ⟨hname, (request, granted) :: later, earlier, rfl, fun u hu' hmem => ?_,
        fun hmem => ?_⟩
      · rcases List.mem_cons.mp hmem with he | hmem
        · exact hr u hu' he.symm
        · exact hregister u hu' hmem
      · rcases List.mem_cons.mp hmem with he | hmem
        · exact hu he.symm
        · exact hunregister hmem

theorem holds_refused : Holds ((request, false) :: record) name t ↔ Holds record name t := by
  simp [holds_cons]

theorem holds_register : Holds ((register u, true) :: record) name t ↔
    if u.name = name then t = u else Holds record name t := by
  rw [holds_cons]
  split
  · rename_i hu
    constructor
    · rintro (⟨-, h⟩ | ⟨-, h, -⟩)
      · cases h
        rfl
      · exact absurd rfl (h u hu)
    · rintro rfl
      exact .inl ⟨hu, rfl⟩
  · rename_i hu
    constructor
    · rintro (⟨hname, h⟩ | ⟨h, -, -⟩)
      · cases h
        exact absurd hname hu
      · exact h
    · refine fun h => .inr ⟨h, fun v hv he => ?_, by simp⟩
      cases he
      exact hu hv

theorem holds_unregister : Holds ((unregister u, true) :: record) name t ↔
    Holds record name t ∧ t ≠ u := by
  rw [holds_cons]
  simp [eq_comm]

variable {s t : Store}

theorem perform_eq (request : Registration) (s : Store) : request.perform s =
    match request.outcome s with
    | .ok t => .ok ⟨⟩ t
    | .error misuse => .error (.misuse misuse) s := by
  change (Build.ofMisuse (request.outcome s) >>= set) s = _
  cases request.outcome s <;> rfl

theorem perform_eq_ok : request.perform s = .ok ⟨⟩ t ↔ request.outcome s = .ok t := by
  rw [perform_eq]
  cases request.outcome s <;> simp

/-- What is refused changes nothing. -/
theorem state_of_error {e : Failure} (h : request.perform s = .error e t) : t = s := by
  rw [perform_eq] at h
  cases hr : request.outcome s <;> rw [hr] at h <;> cases h
  rfl

end Registration

namespace Store

/-! ## One request -/

section

variable {s t : Store} {type : Ty} {name : String}

/-- A type is registered unless another one has its name. -/
theorem register_eq_ok : s.register type = .ok t ↔
    s.catalog.find? type.name = some type ∧ t = s ∨
      s.catalog.find? type.name = none ∧
        t = { s with catalog := s.catalog.insert type.name type } := by
  unfold register
  split
  · rename_i other hother
    split
    · rename_i heq
      simp [hother, heq, eq_comm]
    · rename_i hne
      simp [hother, hne]
  · rename_i hnone
    simp [hnone, eq_comm]

/-- A type is unregistered unless its name is that of a built-in one. -/
theorem unregister_eq_ok : s.unregister type = .ok t ↔
    type.name ∉ Ty.builtIn.map Ty.name ∧
      t = if s.catalog.find? type.name = some type then
          { s with catalog := s.catalog.erase type.name }
        else s := by
  have hany : Ty.builtIn.any (·.name = type.name) = true ↔ type.name ∈ Ty.builtIn.map Ty.name := by
    simp
  unfold unregister
  split
  · rename_i h
    simp [hany.mp h]
  · rename_i h
    simp only [mt hany.mpr h, not_false_eq_true, true_and]
    split <;> simp [eq_comm]

/-- What a granted request does to the names: a registration gives its name to its type, and the
removal of a type frees the name that it has. -/
theorem find?_of_register (h : s.register type = .ok t) (name : String) :
    t.catalog.find? name = if name = type.name then some type else s.catalog.find? name := by
  rcases register_eq_ok.mp h with ⟨hfind, rfl⟩ | ⟨-, rfl⟩
  · split
    · rename_i hname
      rw [hname, hfind]
    · rfl
  · simp

theorem find?_of_unregister (h : s.unregister type = .ok t) (name : String) :
    t.catalog.find? name =
      if name = type.name ∧ s.catalog.find? name = some type then none
      else s.catalog.find? name := by
  obtain ⟨-, rfl⟩ := unregister_eq_ok.mp h
  by_cases hname : name = type.name
  · subst hname
    split <;> simp_all
  · split <;> simp [hname]

theorem lookupType_eq_ok : s.lookupType name = .ok type ↔ s.catalog.find? name = some type := by
  unfold lookupType
  cases s.catalog.find? name <;> simp

/-- The names of the nine types stand for these types. -/
def HasBuiltIn (s : Store) : Prop := ∀ t ∈ Ty.builtIn, s.lookupType t.name = .ok t

theorem hasBuiltIn_initial : initial.HasBuiltIn := by
  unfold HasBuiltIn
  decide +kernel

/-- Another type of a built-in name is refused. -/
theorem HasBuiltIn.register (h : s.HasBuiltIn) (hs : s.register type = .ok t) : t.HasBuiltIn := by
  intro u hu
  have hfind := lookupType_eq_ok.mp (h u hu)
  rw [lookupType_eq_ok, find?_of_register hs]
  split
  · rename_i hname
    rw [hname] at hfind
    rcases register_eq_ok.mp hs with ⟨hsame, -⟩ | ⟨hnone, -⟩
    · exact hsame.symm.trans hfind
    · rw [hnone] at hfind
      cases hfind
  · exact hfind

theorem HasBuiltIn.unregister (h : s.HasBuiltIn) (hs : s.unregister type = .ok t) :
    t.HasBuiltIn := by
  intro u hu
  rw [lookupType_eq_ok, find?_of_unregister hs, if_neg]
  · exact lookupType_eq_ok.mp (h u hu)
  · rintro ⟨hname, -⟩
    exact (unregister_eq_ok.mp hs).1 (hname ▸ List.mem_map_of_mem hu)

/-- A type besides the nine that the catalog has does not share its name with one of them. -/
theorem HasBuiltIn.name_ne (h : s.HasBuiltIn) (htype : type ∉ Ty.builtIn)
    (hs : s.lookupType type.name = .ok type) : ∀ t ∈ Ty.builtIn, type.name ≠ t.name := by
  intro t ht hname
  have ht' := h t ht
  rw [← hname, hs] at ht'
  cases ht'
  exact htype ht

end

/-! ## All requests -/

/-- The store after the requests of a record. What else happens to a store meanwhile has nothing to
do with its catalog. -/
inductive Registers : Registration.Record → Store → Prop
  | start : Registers [] .initial
  | granted {record s t request} (h : Registers record s) (ht : request.perform s = .ok ⟨⟩ t) :
    Registers ((request, true) :: record) t
  | refused {record s t request e} (h : Registers record s) (ht : request.perform s = .error e t) :
    Registers ((request, false) :: record) t
  | meanwhile {record s t} (h : Registers record s) (ht : t.catalog = s.catalog) :
    Registers record t

/-- The catalog after the requests of a record. -/
structure Catalogued (record : Registration.Record) (s : Store) : Prop where
  builtIn : s.HasBuiltIn
  named : ∀ entry ∈ s.catalog.entries, entry.2.name = entry.1
  holder : ∀ name, name ∉ Ty.builtIn.map Ty.name → ∀ type,
    s.lookupType name = .ok type ↔ Registration.Holds record name type
  refused : ∀ (request : Registration) e t, request.perform s = .error e t → t = s
  typeOf_object : ∀ type fields, s.typeOf (.object type fields) = .ok type
  typeOf_plain : ∀ v : Value, v.IsPlain →
    ∃ type ∈ Ty.builtIn, type.name = v.kind ∧ s.typeOf v = .ok type

section

variable {s : Store} {record : Registration.Record} {type : Ty} {name : String}

theorem typeOf_eq_lookupType {v : Value} (h : v.IsPlain) :
    s.typeOf v = s.lookupType v.type.name := by
  cases v with
  | object => exact h.elim
  | _ => rfl

theorem Registers.hasBuiltIn (h : Registers record s) : s.HasBuiltIn := by
  induction h with
  | start => exact hasBuiltIn_initial
  | meanwhile _ ht ih =>
    intro type hmem
    rw [lookupType_eq_ok, ht]
    exact lookupType_eq_ok.mp (ih type hmem)
  | refused _ ht ih => rwa [Registration.state_of_error ht]
  | @granted _ _ _ request _ ht ih =>
    cases request with
    | register => exact ih.register (Registration.perform_eq_ok.mp ht)
    | unregister => exact ih.unregister (Registration.perform_eq_ok.mp ht)

/-- A further request, with what comes of it. -/
theorem Registers.ask (h : Registers record s) (request : Registration) :
    Registers ((request, (request.outcome s).isOk) :: record) (state (request.perform s)) := by
  cases hr : request.outcome s with
  | ok t =>
    rw [Registration.perform_eq_ok.mpr hr]
    exact h.granted (Registration.perform_eq_ok.mpr hr)
  | error misuse =>
    have ht : request.perform s = .error (.misuse misuse) s := by rw [Registration.perform_eq, hr]
    rw [ht]
    exact h.refused ht

theorem Registers.named (h : Registers record s) :
    ∀ entry ∈ s.catalog.entries, entry.2.name = entry.1 := by
  induction h with
  | start => decide +kernel
  | meanwhile _ ht ih => rwa [ht]
  | refused _ ht ih => rwa [Registration.state_of_error ht]
  | @granted record s t request h ht ih =>
    have herase {name : String} : ∀ entry ∈ (s.catalog.erase name).entries,
        entry.2.name = entry.1 := fun entry hentry => ih entry (List.mem_filter.mp hentry |>.1)
    cases request with
    | register u =>
      rcases register_eq_ok.mp (Registration.perform_eq_ok.mp ht) with ⟨-, rfl⟩ | ⟨-, rfl⟩
      · exact ih
      · exact List.forall_mem_cons.mpr ⟨rfl, herase⟩
    | unregister u =>
      obtain ⟨-, rfl⟩ := unregister_eq_ok.mp (Registration.perform_eq_ok.mp ht)
      split
      · exact herase
      · exact ih

/-- A name that is not built in belongs to the type that was registered last and not removed. -/
theorem Registers.holder (h : Registers record s) (hname : name ∉ Ty.builtIn.map Ty.name) :
    s.catalog.find? name = some type ↔ Registration.Holds record name type := by
  induction h with
  | start =>
    have hnone : Store.initial.catalog.find? name = none := by
      have hkeys : Store.initial.catalog.keys = (Ty.builtIn.map Ty.name).reverse := by
        decide +kernel
      cases hfind : Store.initial.catalog.find? name with
      | none => rfl
      | some u =>
        have hmem := List.mem_map_of_mem (f := Prod.fst) (Table.mem_of_find? hfind)
        change name ∈ Store.initial.catalog.keys at hmem
        rw [hkeys, List.mem_reverse] at hmem
        exact absurd hmem hname
    simp [hnone, Registration.not_holds_nil]
  | meanwhile _ ht ih => rwa [ht]
  | refused _ ht ih => rw [Registration.state_of_error ht, Registration.holds_refused, ih]
  | @granted record s t request h ht ih =>
    cases request with
    | register u =>
      have hu : s.register u = .ok t := Registration.perform_eq_ok.mp ht
      rw [find?_of_register hu, Registration.holds_register]
      by_cases hu' : u.name = name
      · simp [hu', eq_comm]
      · simp [hu', Ne.symm hu', ih]
    | unregister u =>
      have hu : s.unregister u = .ok t := Registration.perform_eq_ok.mp ht
      rw [find?_of_unregister hu, Registration.holds_unregister, ← ih]
      split
      · rename_i hheld
        simp [hheld.2, eq_comm]
      · rename_i hheld
        refine ⟨fun hfind => ⟨hfind, ?_⟩, And.left⟩
        rintro rfl
        exact hheld ⟨(h.named _ (Table.mem_of_find? hfind)).symm, hfind⟩

/-- Whatever is registered and unregistered, the built-in names keep their types, each type stands
under its own name, the other names belong to the last type registered and not removed, and every
value has a type. -/
theorem Registers.catalogued (h : Registers record s) : Catalogued record s where
  builtIn := h.hasBuiltIn
  named := h.named
  holder name hname type := by rw [lookupType_eq_ok, h.holder hname]
  refused _ _ _ ht := Registration.state_of_error ht
  typeOf_object _ _ := rfl
  typeOf_plain v hv := by
    have hmem := Value.type_mem_builtIn hv
    refine ⟨v.type, hmem, rfl, ?_⟩
    rw [typeOf_eq_lookupType hv]
    exact h.hasBuiltIn v.type hmem

/-- Two types share a name: the second one is refused until the first one is removed, and its own
removal leaves the first one where it is. A type named like a built-in one never comes in. -/
theorem catalogued_turns : ∃ s : Store,
    s.lookupType "Point" = .ok (.custom 1 "Point") ∧ s.lookupType "Integer" = .ok .integer ∧
      s.typeOf (.object (.custom 0 "Point") ⟨0⟩) = .ok (.custom 0 "Point") := by
  let first : Ty := .custom 0 "Point"
  let second : Ty := .custom 1 "Point"
  have h := Registers.start |>.ask (.register first) |>.ask (.register second)
    |>.ask (.unregister second) |>.ask (.unregister first) |>.ask (.register second)
    |>.ask (.unregister first) |>.ask (.register (.custom 2 "Integer"))
    |>.ask (.unregister .integer)
  refine ⟨_, (h.catalogued.holder "Point" (by decide +kernel) second).mpr ⟨rfl, ?_⟩,
    h.catalogued.builtIn .integer (by decide +kernel), h.catalogued.typeOf_object _ _⟩
  refine ⟨[(.unregister .integer, false), (.register (.custom 2 "Integer"), false),
    (.unregister first, true)], [(.unregister first, true), (.unregister second, true),
    (.register second, false), (.register first, true)], by decide +kernel, ?_, by decide +kernel⟩
  intro u _
  simp

end

end Store

end BlockScript
