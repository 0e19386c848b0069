import BlockScript.Proofs.Token.Scanning
import Mathlib.Data.List.Induction

/-!
# Tokens and their places

The spans of the tokens tile a text: they are in order and do not overlap, each holds the text of
its token, and only blanks lie between them. The line and the column of a token are what counting in
the text before it gives.
-/

namespace BlockScript

/-! ## Places counted in a text -/

namespace Position

theorem advance_concat (p : Position) (cs : List Char) (c : Char) :
    p.advance (cs ++ [c]) = (p.advance cs).step c :=
  p.advance_append cs [c]

/-- Lines are counted by line feeds. -/
theorem line_advance (cs : List Char) : (start.advance cs).line = 1 + cs.count '\n' := by
  induction cs using List.reverseRecOn with
  | nil => rfl
  | append_singleton cs c ih =>
    rw [advance_concat, step, List.count_append]
    by_cases hc : c = '\n'
    · simp [hc, ih, Nat.add_assoc]
    · simp [hc, ih]

/-- Columns are counted by the characters behind the last line feed. -/
theorem column_advance (cs : List Char) :
    (start.advance cs).column = 1 + (cs.reverse.takeWhile (· ≠ '\n')).length := by
  induction cs using List.reverseRecOn with
  | nil => rfl
  | append_singleton cs c ih =>
    rw [advance_concat, step, List.reverse_append, List.reverse_singleton, List.singleton_append]
    by_cases hc : c = '\n'
    · simp [hc]
    · simp [hc, ih, Nat.add_assoc]

end Position

namespace Token

/-! ## Spans -/

/-- The character at index `n` is one of the token's. -/
def Covers (t : Token) (n : Nat) : Prop := t.index ≤ n ∧ n < t.index + t.raw.length

/-- The tokens `ts` tile the text `cs` and tell their places in it. -/
structure Tiles (cs : List Char) (ts : List Token) : Prop where
  ordered : ts.Pairwise fun t u => t.index < u.index ∧ t.index + t.raw.length ≤ u.index
  spelled : ∀ t ∈ ts, (cs.drop t.index).take t.raw.length = t.raw.toList
  blank : ∀ n (h : n < cs.length), (∀ t ∈ ts, ¬ t.Covers n) →
    cs[n] ∈ [' ', '\t', '\r', '\n', '\x08']
  ended : ∃ us eof, ts = us ++ [eof] ∧ eof.kind = .endOfInput ∧ eof.index = cs.length ∧
    ∀ t ∈ us, t.kind ≠ .endOfInput
  line : ∀ t ∈ ts, t.position.line = 1 + (cs.take t.index).count '\n'
  column : ∀ t ∈ ts,
    t.position.column = 1 + ((cs.take t.index).reverse.takeWhile (· ≠ '\n')).length

section

variable {p : Position} {i : Nat} {f : Bool} {cs : List Char} {ts : List Token}

/-- A token stands behind some part of the text, and its place is where that part ends. -/
theorem Scans.exists_before (h : Scans p i f cs ts) {t : Token} (ht : t ∈ ts) :
    ∃ before after, cs = before ++ t.raw.toList ++ after ∧ t.index = i + before.length ∧
      t.position = p.advance before := by
  induction h with
  | done p i =>
    obtain rfl := List.mem_singleton.mp ht
    exact ⟨[], [], rfl, rfl, rfl⟩
  | @blank p i f c cs ts _ _ ih =>
    obtain ⟨before, after, rfl, hindex, hposition⟩ := ih ht
    exact ⟨c :: before, after, rfl, by rw [hindex, List.length_cons]; omega, hposition⟩
  | @word p i f c cs l ts _ hl _ ih =>
    have happend := (lexeme_append hl).1
    rcases List.mem_cons.mp ht with rfl | ht
    · exact ⟨[], l.rest, by simp [happend], rfl, rfl⟩
    · obtain ⟨before, after, hrest, hindex, hposition⟩ := ih ht
      refine ⟨l.raw ++ before, after, ?_, ?_, ?_⟩
      · rw [← happend, hrest]
        simp only [List.append_assoc]
      · rw [hindex, List.length_append, Nat.add_assoc]
      · rw [hposition, Position.advance_append]

theorem Scans.le_index (h : Scans p i f cs ts) : ∀ t ∈ ts, i ≤ t.index := by
  intro t ht
  obtain ⟨before, _, _, hindex, _⟩ := h.exists_before ht
  omega

theorem Scans.ordered (h : Scans p i f cs ts) :
    ts.Pairwise fun t u => t.index < u.index ∧ t.index + t.raw.length ≤ u.index := by
  induction h with
  | done => exact List.pairwise_singleton _ _
  | blank _ _ ih => exact ih
  | word _ hl h ih =>
    refine .cons (fun u hu => ?_) ih
    have hpos := List.length_pos_iff.mpr (lexeme_append hl).2
    have hle := h.le_index u hu
    simp only [String.length_ofList]
    omega

/-- What no token covers is blank. -/
theorem Scans.isBlank (h : Scans p i f cs ts) {n : Nat} (hn : n < cs.length)
    (huncovered : ∀ t ∈ ts, ¬ t.Covers (i + n)) : isBlank cs[n] := by
  induction h generalizing n with
  | done => cases hn
  | @blank p i f c cs ts hc _ ih =>
    cases n with
    | zero => exact hc
    | succ n =>
      refine ih (Nat.lt_of_succ_lt_succ hn) fun t ht => ?_
      rw [show i + 1 + n = i + (n + 1) by omega]
      exact huncovered t ht
  | @word p i f c cs l ts _ hl _ ih =>
    have happend := (lexeme_append hl).1
    simp only [← happend] at hn ⊢
    by_cases hraw : n < l.raw.length
    · refine absurd ?_ (huncovered _ List.mem_cons_self)
      exact ⟨Nat.le_add_right i n, by simpa using hraw⟩
    · obtain ⟨k, rfl⟩ := Nat.exists_eq_add_of_le (Nat.le_of_not_lt hraw)
      rw [List.length_append] at hn
      rw [List.getElem_append_right (Nat.le_add_right _ k)]
      simp only [Nat.add_sub_cancel_left]
      refine ih (Nat.lt_of_add_lt_add_left hn) fun t ht => ?_
      rw [Nat.add_assoc]
      exact huncovered t (List.mem_cons_of_mem _ ht)

theorem Scans.end_index (h : Scans p i f cs ts) :
    ∀ t ∈ ts, t.kind = .endOfInput → t.index = i + cs.length := by
  induction h with
  | done p i => simp [endAt]
  | blank _ _ ih =>
    intro t ht hkind
    rw [ih t ht hkind, List.length_cons]
    omega
  | word _ hl _ ih =>
    refine List.forall_mem_cons.mpr ⟨fun hkind => absurd hkind (lexeme_kind hl), ?_⟩
    intro t ht hkind
    rw [ih t ht hkind, ← (lexeme_append hl).1, List.length_append, Nat.add_assoc]

end

/-- The tokens of a text tile it, whatever the text is. -/
theorem tokenize_tiles {source : String} {ts : List Token} (h : tokenize source = .ok ts) :
    Tiles source.toList ts := by
  have hscans := tokenize_eq_ok_iff.mp h
  have hplace : ∀ t ∈ ts, t.position = Position.start.advance (source.toList.take t.index) ∧
      (source.toList.drop t.index).take t.raw.length = t.raw.toList := by
    intro t ht
    obtain ⟨before, after, hsource, hindex, hposition⟩ := hscans.exists_before ht
    rw [Nat.zero_add] at hindex
    rw [hsource, hindex, hposition, List.append_assoc, List.take_left, List.drop_left,
      ← String.length_toList, List.take_left]
    exact ⟨rfl, rfl⟩
  refine ⟨hscans.ordered, fun t ht => (hplace t ht).2, fun n hn huncovered => ?_, ?_,
    fun t ht => ?_, fun t ht => ?_⟩
  · have hblank := hscans.isBlank hn (by simpa using huncovered)
    simp only [Token.isBlank, Bool.or_eq_true, decide_eq_true_eq, or_assoc] at hblank
    simp only [List.mem_cons, List.not_mem_nil, or_false]
    exact hblank
  · obtain ⟨us, eof, rfl, hkind, hus⟩ := hscans.exists_end
    have hindex := hscans.end_index eof (by simp) hkind
    exact ⟨us, eof, rfl, hkind, by rw [hindex, Nat.zero_add], hus⟩
  · rw [(hplace t ht).1, Position.line_advance]
  · rw [(hplace t ht).1, Position.column_advance]

theorem tokenize_tiles_escape :
    ∃ ts, tokenize "a =\n\t\"\\n\";" = .ok ts ∧ Tiles "a =\n\t\"\\n\";".toList ts ∧
      ts.map (fun t => (t.index, t.position)) =
        [(0, ⟨1, 1⟩), (2, ⟨1, 3⟩), (5, ⟨2, 2⟩), (9, ⟨2, 6⟩), (10, ⟨2, 7⟩)] :=
  ⟨_, rfl, tokenize_tiles rfl, rfl⟩

end Token

end BlockScript
