/-!
# Tables

Finite maps as lists of pairs. A new pair for a key takes the place of the old one; `find?` is the
view by which the operations are told apart.
-/

namespace BlockScript

/-- A finite map, its latest entry first. -/
structure Table (κ ν : Type) where
  entries : List (κ × ν)

namespace Table

variable {κ ν : Type} [DecidableEq κ]

def empty : Table κ ν := ⟨[]⟩

def find? (t : Table κ ν) (k : κ) : Option ν := t.entries.lookup k

def erase (t : Table κ ν) (k : κ) : Table κ ν := ⟨t.entries.filter (·.1 ≠ k)⟩

def insert (t : Table κ ν) (k : κ) (v : ν) : Table κ ν := ⟨(k, v) :: (t.erase k).entries⟩

def keys (t : Table κ ν) : List κ := t.entries.map Prod.fst

@[simp] theorem find?_empty (k : κ) : (empty : Table κ ν).find? k = none := rfl

@[simp] theorem find?_erase (t : Table κ ν) (k l : κ) :
    (t.erase k).find? l = if l = k then none else t.find? l := by
  obtain ⟨es⟩ := t
  simp only [find?, erase]
  induction es with
  | nil => simp
  | cons e es ih => grind

@[simp] theorem find?_insert (t : Table κ ν) (k l : κ) (v : ν) :
    (t.insert k v).find? l = if l = k then some v else t.find? l := by
  have h := find?_erase t k l
  simp only [find?, insert] at h ⊢
  grind

theorem mem_of_find? {t : Table κ ν} {k : κ} {v : ν} (h : t.find? k = some v) :
    (k, v) ∈ t.entries := by
  obtain ⟨before, behind, hentries, -⟩ := List.lookup_eq_some_iff.mp h
  rw [hentries]
  exact List.mem_append_right before List.mem_cons_self

end Table

end BlockScript
