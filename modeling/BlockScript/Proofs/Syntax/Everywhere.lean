import BlockScript.Proofs.Syntax.Canonical

/-!
# Properties of all expressions and names of a program

`Consists P N` says that `P` holds of every expression and `N` of every name and type name. What
`grouped`, `ungrouped` and `unplaced` do to expressions carries over to programs.
-/

namespace BlockScript

section

variable (P : Expr → Prop) (N : String → Prop)

def Binding.Consists (b : Binding) : Prop :=
  N b.name ∧ (∀ t ∈ b.type, N t) ∧ ∀ e ∈ b.value, P e

namespace Stmt

mutual

def Consists : Stmt → Prop
  | .expression _ value => P value
  | .declare b => b.Consists P N
  | .assign _ target value => P target ∧ P value
  | .conditional _ condition thenBody elseBody =>
    P condition ∧ AllConsist thenBody ∧ AllConsist elseBody
  | .forLoop _ name iterable body => N name ∧ P iterable ∧ AllConsist body
  | .whileLoop _ condition body => P condition ∧ AllConsist body
  | .ret _ value => P value
  | .unknown .. => False

def AllConsist : List Stmt → Prop
  | [] => True
  | s :: rest => s.Consists ∧ AllConsist rest

end

end Stmt

def Param.Consists (p : Param) : Prop := N p.name ∧ ∀ t ∈ p.type, N t

def Method.Consists (m : Method) : Prop :=
  N m.name ∧ (∀ p ∈ m.params, p.Consists N) ∧ (∀ t ∈ m.returnType, N t) ∧
    Stmt.AllConsist P N m.body

def Program.Consists (p : Program) : Prop :=
  (∀ b ∈ p.fields, b.Consists P N) ∧ ∀ m ∈ p.methods, m.Consists P N

end

/-- The names, operators and literals of a program are those of the language. -/
def Program.WellFormed (p : Program) : Prop := p.Consists Expr.WellFormed IsIdentifier

/-- All expressions of a program are canonical. -/
def Program.Canonical (p : Program) : Prop := p.Consists Expr.Canonical fun _ => True

/-! ## Changes of all expressions -/

section

variable {P Q : Expr → Prop} {N M : String → Prop} {f f' : Expr → Expr} {g g' : Position → Position}

namespace Stmt

theorem allConsist_iff (ss : List Stmt) : AllConsist P N ss ↔ ∀ s ∈ ss, s.Consists P N := by
  induction ss with
  | nil => simp [AllConsist]
  | cons s ss ih => simp [AllConsist, ih]

theorem consists_map (s : Stmt) : (s.map f g).Consists P N ↔ s.Consists (fun e => P (f e)) N := by
  induction s with
  | expression | ret | assign | unknown => rfl
  | declare b => simp [map, Consists, Binding.map, Binding.Consists]
  | conditional p condition thenBody elseBody ht he =>
    simp only [map, Consists, mapAll_eq_map, allConsist_iff, List.forall_mem_map]
    exact and_congr_right fun _ => and_congr (forall₂_congr ht) (forall₂_congr he)
  | forLoop p name iterable body ih =>
    simp only [map, Consists, mapAll_eq_map, allConsist_iff, List.forall_mem_map]
    exact and_congr_right fun _ => and_congr_right fun _ => forall₂_congr ih
  | whileLoop p condition body ih =>
    simp only [map, Consists, mapAll_eq_map, allConsist_iff, List.forall_mem_map]
    exact and_congr_right fun _ => forall₂_congr ih

theorem map_map (s : Stmt) :
    (s.map f g).map f' g' = s.map (fun e => f' (f e)) (fun p => g' (g p)) := by
  induction s with
  | expression | ret | assign | unknown => rfl
  | declare b => cases b; simp [map, Binding.map, Function.comp_def]
  | conditional p condition thenBody elseBody ht he =>
    simpa [map, mapAll_eq_map] using ⟨ht, he⟩
  | forLoop p name iterable body ih | whileLoop p condition body ih =>
    simpa [map, mapAll_eq_map] using ih

theorem map_eq_self {s : Stmt} (h : s.Consists (fun e => f e = e) N) : s.map f id = s := by
  induction s with
  | expression p value => simp_all [map, Consists]
  | ret p value => simp_all [map, Consists]
  | assign p target value => simp_all [map, Consists]
  | unknown => exact h.elim
  | declare b =>
    obtain ⟨p, name, type, value⟩ := b
    cases value <;> simp_all [map, Consists, Binding.Consists, Binding.map]
  | conditional p condition thenBody elseBody ht he =>
    obtain ⟨hc, h₁, h₂⟩ := h
    rw [allConsist_iff] at h₁ h₂
    simp only [map, mapAll_eq_map, hc, id_eq]
    rw [List.map_congr_left fun s hs => ht s hs (h₁ s hs),
      List.map_congr_left fun s hs => he s hs (h₂ s hs), List.map_id', List.map_id']
  | forLoop p name iterable body ih =>
    obtain ⟨-, hi, h⟩ := h
    rw [allConsist_iff] at h
    simp only [map, mapAll_eq_map, hi, id_eq]
    rw [List.map_congr_left fun s hs => ih s hs (h s hs), List.map_id']
  | whileLoop p condition body ih =>
    obtain ⟨hc, h⟩ := h
    rw [allConsist_iff] at h
    simp only [map, mapAll_eq_map, hc, id_eq]
    rw [List.map_congr_left fun s hs => ih s hs (h s hs), List.map_id']

theorem consists_mono (hPQ : ∀ e, P e → Q e) (hNM : ∀ n, N n → M n) {s : Stmt}
    (h : s.Consists P N) : s.Consists Q M := by
  induction s with
  | expression | ret => exact hPQ _ h
  | assign => exact ⟨hPQ _ h.1, hPQ _ h.2⟩
  | unknown => exact h
  | declare b =>
    exact ⟨hNM _ h.1, fun t ht => hNM t (h.2.1 t ht), fun e he => hPQ e (h.2.2 e he)⟩
  | conditional p condition thenBody elseBody ht he =>
    obtain ⟨hc, h₁, h₂⟩ := h
    rw [allConsist_iff] at h₁ h₂
    exact ⟨hPQ _ hc, (allConsist_iff _).mpr fun s hs => ht s hs (h₁ s hs),
      (allConsist_iff _).mpr fun s hs => he s hs (h₂ s hs)⟩
  | forLoop p name iterable body ih =>
    obtain ⟨hn, hi, h⟩ := h
    rw [allConsist_iff] at h
    exact ⟨hNM _ hn, hPQ _ hi, (allConsist_iff _).mpr fun s hs => ih s hs (h s hs)⟩
  | whileLoop p condition body ih =>
    obtain ⟨hc, h⟩ := h
    rw [allConsist_iff] at h
    exact ⟨hPQ _ hc, (allConsist_iff _).mpr fun s hs => ih s hs (h s hs)⟩

end Stmt

namespace Program

theorem consists_map (p : Program) :
    (p.map f g).Consists P N ↔ p.Consists (fun e => P (f e)) N := by
  simp [Consists, map, Method.Consists, Method.map, Binding.Consists, Binding.map, Param.Consists,
    Param.map, Stmt.mapAll_eq_map, Stmt.allConsist_iff, Stmt.consists_map]

theorem map_map (p : Program) :
    (p.map f g).map f' g' = p.map (fun e => f' (f e)) (fun q => g' (g q)) := by
  simp [map, Method.map, Binding.map, Param.map, Stmt.mapAll_eq_map, Stmt.map_map,
    Function.comp_def]

theorem map_eq_self {p : Program} (h : p.Consists (fun e => f e = e) N) : p.map f id = p := by
  obtain ⟨fields, methods⟩ := p
  obtain ⟨hf, hm⟩ := h
  have hfields : ∀ b ∈ fields, b.map f id = b := by
    rintro ⟨p, name, type, value⟩ hb
    have hv := (hf _ hb).2.2
    cases value <;> simp_all [Binding.map]
  have hmethods : ∀ m ∈ methods, m.map f id = m := by
    rintro ⟨p, name, params, type, body⟩ hmem
    have hbody := (Stmt.allConsist_iff body).mp (hm _ hmem).2.2.2
    have hparams : params.map (Param.map id) = params := List.map_id' params
    simp only [Method.map, Stmt.mapAll_eq_map, hparams, id_eq]
    rw [List.map_congr_left fun s hs => Stmt.map_eq_self (hbody s hs), List.map_id']
  simp only [map, List.map_congr_left hfields, List.map_congr_left hmethods, List.map_id']

theorem consists_mono (hPQ : ∀ e, P e → Q e) (hNM : ∀ n, N n → M n) {p : Program}
    (h : p.Consists P N) : p.Consists Q M := by
  refine ⟨fun b hb => ?_, fun m hm => ?_⟩
  · obtain ⟨hn, ht, hv⟩ := h.1 b hb
    exact ⟨hNM _ hn, fun t hm => hNM t (ht t hm), fun e he => hPQ e (hv e he)⟩
  · obtain ⟨hn, hp, ht, hb⟩ := h.2 m hm
    rw [Stmt.allConsist_iff] at hb
    exact ⟨hNM _ hn, fun p hm => ⟨hNM _ (hp p hm).1, fun t ht => hNM t ((hp p hm).2 t ht)⟩,
      fun t hm => hNM t (ht t hm),
      (Stmt.allConsist_iff _).mpr fun s hs => Stmt.consists_mono hPQ hNM (hb s hs)⟩

/-! ## Grouping of programs -/

theorem canonical_grouped {p : Program} (h : p.WellFormed) : p.grouped.Canonical := by
  rw [Canonical, grouped, consists_map]
  exact consists_mono (fun e _ => Expr.canonical_grouped e) (fun _ _ => trivial) h

theorem grouped_of_canonical {p : Program} (h : p.Canonical) : p.grouped = p :=
  map_eq_self (consists_mono (fun _ => Expr.grouped_of_canonical) (fun _ hn => hn) h)

theorem ungrouped_grouped (p : Program) : p.grouped.ungrouped = p.ungrouped := by
  simp only [grouped, ungrouped, map_map, Expr.ungrouped_grouped]
  rfl

theorem unplaced_ungrouped (p : Program) : p.ungrouped.unplaced = p.unplaced.ungrouped := by
  simp [ungrouped, unplaced, map_map, Expr.unplaced_ungrouped]

theorem wellFormed_grouped (p : Program) : p.grouped.WellFormed ↔ p.WellFormed := by
  simp [WellFormed, grouped, consists_map, Expr.wellFormed_grouped]

theorem wellFormed_unplaced (p : Program) : p.unplaced.WellFormed ↔ p.WellFormed := by
  simp [WellFormed, unplaced, consists_map, Expr.wellFormed_unplaced]

end Program

end

end BlockScript
