import BlockScript.Proofs.Syntax.DerivationProgram
import Mathlib.Computability.Language

/-!
# Viable beginnings

The stretches of tokens that a right side derives make a language, and tokens are viable if more
tokens make them a word of it. A production decides on one token: it takes the tokens of a word, or
it rejects the token behind a viable beginning, and whatever stands behind that token changes
nothing.
-/

open scoped Computability

namespace BlockScript

/-- The tokens of a text: the end of the input stands at their end and nowhere else. -/
inductive Token.Stream : List Token → Prop
  | last {t : Token} (h : t.kind = .endOfInput) : Stream [t]
  | cons {t : Token} {ts : List Token} (ht : t.Lexical) (hkind : t.kind ≠ .endOfInput)
      (h : Stream ts) : Stream (t :: ts)

namespace Token.Stream

variable {t eof : Token} {ts us : List Token}

theorem tail (h : Stream (t :: ts)) (hkind : t.kind ≠ .endOfInput) : t.Lexical ∧ Stream ts := by
  cases h with
  | last hend => exact absurd hend hkind
  | cons ht _ h => exact ⟨ht, h⟩

theorem lexical (h : Stream ts) : ∀ t ∈ ts, t.kind ≠ .endOfInput → t.Lexical := by
  induction h with
  | last h => exact List.forall_mem_singleton.mpr fun hkind => absurd h hkind
  | cons ht _ _ ih => exact List.forall_mem_cons.mpr ⟨fun _ => ht, ih⟩

theorem suffix (h : Stream (us ++ t :: ts)) : Stream (t :: ts) := by
  induction us with
  | nil => exact h
  | cons u us ih =>
    cases hus : us ++ t :: ts with
    | nil => simp at hus
    | cons v vs =>
      rw [List.cons_append, hus] at h
      cases h with
      | cons _ _ h => exact ih (hus ▸ h)

theorem of_snoc (hts : ∀ t ∈ ts, t.Lexical ∧ t.kind ≠ .endOfInput) (heof : eof.kind = .endOfInput) :
    Stream (ts ++ [eof]) := by
  induction ts with
  | nil => exact .last heof
  | cons t ts ih =>
    rw [List.forall_mem_cons] at hts
    exact .cons hts.1.1 hts.1.2 (ih hts.2)

theorem of_tokenize {source : String} (h : tokenize source = .ok ts) : Stream ts := by
  have hscans := tokenize_eq_ok_iff.mp h
  obtain ⟨us, eof, rfl, heof, hus⟩ := hscans.exists_end
  exact of_snoc (fun t ht => ⟨hscans.lexical t (by simp [ht]), hus t ht⟩) heof

end Token.Stream

/-! ## Languages of tokens -/

namespace Ebnf

variable {e f : Ebnf} {n : Nonterminal} {r : Terminal} {terminals : List Terminal} {t : Token}
  {ts us : List Token}

/-- What a right side derives. -/
def language (e : Ebnf) : Language Token := {ts | ∃ v, Derives e v ts}

theorem mem_language_oneOf (hr : r ∈ terminals) (h : r.Matches t) :
    [t] ∈ (oneOf terminals).language :=
  ⟨t, .oneOf r hr h⟩

theorem language_ref : (ref n).language = (rule n).language := by
  ext ts
  constructor
  · rintro ⟨_, h⟩
    cases h with
    | ref h => exact ⟨_, h⟩
  · rintro ⟨_, h⟩
    exact ⟨_, .ref h⟩

theorem language_seq : (seq e f).language = e.language * f.language := by
  ext ts
  rw [Language.mem_mul]
  constructor
  · rintro ⟨_, h⟩
    cases h with
    | seq h h' => exact ⟨_, ⟨_, h⟩, _, ⟨_, h'⟩, rfl⟩
  · rintro ⟨us, ⟨_, h⟩, vs, ⟨_, h'⟩, rfl⟩
    exact ⟨_, .seq h h'⟩

theorem language_alt : (alt e f).language = e.language + f.language := by
  ext ts
  rw [Language.mem_add]
  constructor
  · rintro ⟨_, h⟩
    cases h with
    | inl h => exact .inl ⟨_, h⟩
    | inr h => exact .inr ⟨_, h⟩
  · rintro (⟨_, h⟩ | ⟨_, h⟩)
    · exact ⟨_, .inl h⟩
    · exact ⟨_, .inr h⟩

theorem language_opt : (opt e).language = 1 + e.language := by
  ext ts
  rw [Language.mem_add, Language.mem_one]
  constructor
  · rintro ⟨_, h⟩
    cases h with
    | none => exact .inl rfl
    | some h => exact .inr ⟨_, h⟩
  · rintro (rfl | ⟨_, h⟩)
    · exact ⟨_, .none⟩
    · exact ⟨_, .some h⟩

theorem language_star : (star e).language = e.language∗ := by
  ext ts
  rw [Language.mem_kstar]
  constructor
  · rintro ⟨vs, h⟩
    change List e.Val at vs
    induction vs generalizing ts with
    | nil =>
      cases h
      exact ⟨[], rfl, nofun⟩
    | cons v vs ih =>
      cases h with
      | @cons _ _ _ us ws h h' =>
        obtain ⟨parts, rfl, hparts⟩ := ih ws h'
        exact ⟨us :: parts, rfl, List.forall_mem_cons.mpr ⟨⟨_, h⟩, hparts⟩⟩
  · rintro ⟨parts, rfl, hparts⟩
    induction parts with
    | nil => exact ⟨_, .nil⟩
    | cons us parts ih =>
      rw [List.forall_mem_cons] at hparts
      obtain ⟨v, hv⟩ := hparts.1
      obtain ⟨vs, hvs⟩ := ih hparts.2
      exact ⟨_, .cons hv hvs⟩

end Ebnf

/-! ## Viable beginnings -/

/-- Tokens that can be made from a text complete `ts` to a word of the language. -/
def Viable (L : Language Token) (ts : List Token) : Prop :=
  ∃ more, (∀ t ∈ more, t.Lexical) ∧ ts ++ more ∈ L

section

variable {L M : Language Token} {ts us : List Token}

theorem Viable.mono (h : Viable L ts) (hLM : ∀ us ∈ L, us ∈ M) : Viable M ts := by
  obtain ⟨more, hmore, hmem⟩ := h
  exact ⟨more, hmore, hLM _ hmem⟩

/-- Behind a word of the first language. -/
theorem Viable.of_append (hts : ts ∈ L) (h : Viable M us) : Viable (L * M) (ts ++ us) := by
  obtain ⟨more, hmore, hmem⟩ := h
  refine ⟨more, hmore, ?_⟩
  rw [List.append_assoc]
  exact Language.append_mem_mul hts hmem

/-- Tokens that can be made from a text are a word of the language. -/
class Completable (L : Language Token) : Prop where
  viable : Viable L []

/-- Within the first language, if the second has a word at all. -/
theorem Viable.mul [hM : Completable M] (h : Viable L ts) : Viable (L * M) ts := by
  obtain ⟨more, hmore, hmem⟩ := h
  obtain ⟨end', hend, hmem'⟩ := hM.viable
  refine ⟨more ++ end', List.forall_mem_append.mpr ⟨hmore, hend⟩, ?_⟩
  rw [← List.append_assoc]
  exact Language.append_mem_mul hmem hmem'

/-- One more word in front of a series of words. -/
theorem mem_kstar_of_mem_mul : ∀ us ∈ L * L∗, us ∈ L∗ := by
  have h : L * L∗ ≤ L∗ := mul_kstar_le_kstar
  exact fun us hus => h hus

instance : Completable 1 := ⟨[], nofun, Language.nil_mem_one⟩

instance : Completable (L∗) := ⟨[], nofun, Language.nil_mem_kstar L⟩

instance [hL : Completable L] [Completable M] : Completable (L * M) := ⟨hL.viable.mul⟩

instance [hL : Completable L] : Completable (L + M) :=
  ⟨hL.viable.mono fun _ h => (Language.mem_add ..).mpr (.inl h)⟩

end

/-! ## Productions that decide on one token -/

namespace Grammar

variable {α β : Type} {x y : Nat → Production α} {L M : Language Token} {t k : Token} {n : Nat}
  {ts us behind : List Token}

/-- What a production comes to on the tokens `ts`: it takes a word of the language, or it rejects
the token behind a viable beginning. It comes to the same from all tokens that agree with `ts` up to
the token that it stops at, and with any more room than it needs: `x i` has room for `i` tokens
more than `x 0`. -/
inductive Decided (L : Language Token) (x : Nat → Production α) (ts : List Token) : Prop
  | ok (a : α) (read : List Token) (k : Token) (behind : List Token)
      (hts : ts = read ++ k :: behind)
      (hread : read ∈ L) (hx : ∀ i more, x i (read ++ k :: more) = .ok (a, k :: more))
  | error (d : Diagnostic) (read : List Token) (k : Token) (behind : List Token)
      (hts : ts = read ++ k :: behind) (hread : Viable L read) (hd : d.position = some k.position)
      (hx : ∀ i more, x i (read ++ k :: more) = .error d)

/-- The production decides on any `n` tokens or fewer of which `t` is the first. -/
def DecidesAt (t : Token) (L : Language Token) (n : Nat) (x : Nat → Production α) : Prop :=
  ∀ ts, Token.Stream (t :: ts) → ts.length < n → Decided L x (t :: ts)

def Decides (L : Language Token) (n : Nat) (x : Nat → Production α) : Prop :=
  ∀ t, DecidesAt t L n x

theorem DecidesAt.mono (h : DecidesAt t L n x) (hLM : ∀ us ∈ L, us ∈ M) : DecidesAt t M n x := by
  intro ts hts hlength
  cases h ts hts hlength with
  | ok a read k behind hsplit hread hx => exact .ok a read k behind hsplit (hLM read hread) hx
  | error d read k behind hsplit hread hd hx =>
    exact .error d read k behind hsplit (hread.mono hLM) hd hx

theorem Decides.le {m : Nat} (h : Decides L n x) (hm : m ≤ n) : Decides L m x :=
  fun t ts hts hlength => h t ts hts (Nat.lt_of_lt_of_le hlength hm)

/-- There is no room for a token. -/
theorem decides_zero : Decides L 0 x := fun _ _ _ h => absurd h (Nat.not_lt_zero _)

/-- Lists that agree up to a token begin with the same token. -/
theorem exists_cons_of_append (h : t :: ts = us ++ k :: behind) (more : List Token) :
    ∃ more', us ++ k :: more = t :: more' := by
  cases us with
  | nil =>
    obtain ⟨rfl, -⟩ := List.cons.inj h
    exact ⟨more, rfl⟩
  | cons u us =>
    obtain ⟨rfl, -⟩ := List.cons.inj h
    exact ⟨us ++ k :: more, rfl⟩

/-- Productions that act alike where the first token is `t`. -/
theorem DecidesAt.congr (h : DecidesAt t L n x) (hxy : ∀ i ts, y i (t :: ts) = x i (t :: ts)) :
    DecidesAt t L n y := by
  intro ts hts hlength
  have hsame {read : List Token} {k : Token} {behind : List Token}
      (hsplit : t :: ts = read ++ k :: behind) (i : Nat) (more : List Token) :
      y i (read ++ k :: more) = x i (read ++ k :: more) := by
    obtain ⟨more', hmore⟩ := exists_cons_of_append hsplit more
    rw [hmore, hxy]
  cases h ts hts hlength with
  | ok a read k behind hsplit hread hx =>
    exact .ok a read k behind hsplit hread fun i more => (hsame hsplit i more).trans (hx i more)
  | error d read k behind hsplit hread hd hx =>
    exact .error d read k behind hsplit hread hd fun i more =>
      (hsame hsplit i more).trans (hx i more)

theorem decidesAt_pure (a : α) : DecidesAt t 1 n fun _ => pure a :=
  fun ts _ _ => .ok a [] t ts rfl Language.nil_mem_one fun _ _ => rfl

theorem decidesAt_reject (cause : Token → Cause) [hL : Completable L] :
    DecidesAt t L n fun _ => (reject cause : Production α) :=
  fun ts _ _ => .error ⟨cause t, some t.position⟩ [] t ts rfl hL.viable rfl fun _ _ => rfl

/-- First `x`, which takes enough tokens for what follows to have `m` at most. -/
theorem DecidesAt.bind_of_le [Completable M] {m : Nat} {f : Nat → α → Production β}
    (hx : DecidesAt t L n x) (hL : ∀ ts ∈ L, n ≤ ts.length + m)
    (hf : ∀ a, Decides M m fun i => f i a) : DecidesAt t (L * M) n fun i => x i >>= f i := by
  intro ts hts hlength
  cases hx ts hts hlength with
  | error d read k behind hsplit hread hd hx =>
    refine .error d read k behind hsplit hread.mul hd fun i more => ?_
    change (x i (read ++ k :: more) >>= fun r => f i r.1 r.2) = _
    rw [hx]
    rfl
  | ok a read k behind hsplit hread hx =>
    have hstream : Token.Stream (k :: behind) := (hsplit ▸ hts).suffix
    have hbehind : behind.length < m := by
      have hn := hL read hread
      have hlengths := congrArg List.length hsplit
      simp only [List.length_cons, List.length_append] at hlengths
      omega
    -- what follows `x` begins with `k` in all lists that agree up to where it stops
    have hthen {read' : List Token} {k' : Token} {behind' : List Token}
        (hsplit' : k :: behind = read' ++ k' :: behind') (i : Nat) (more : List Token) :
        (x i >>= f i) (read ++ read' ++ k' :: more) = f i a (read' ++ k' :: more) := by
      obtain ⟨more', hmore⟩ := exists_cons_of_append hsplit' more
      rw [List.append_assoc, hmore]
      exact bind_of_ok (hx i more')
    have htokens {read' : List Token} {k' : Token} {behind' : List Token}
        (hsplit' : k :: behind = read' ++ k' :: behind') :
        t :: ts = read ++ read' ++ k' :: behind' := by
      rw [hsplit, hsplit', List.append_assoc]
    cases hf a k behind hstream hbehind with
    | ok b read' k' behind' hsplit' hread' hx' =>
      exact .ok b _ k' behind' (htokens hsplit') (Language.append_mem_mul hread hread')
        fun i more => (hthen hsplit' i more).trans (hx' i more)
    | error d read' k' behind' hsplit' hread' hd hx' =>
      exact .error d _ k' behind' (htokens hsplit') (hread'.of_append hread) hd
        fun i more => (hthen hsplit' i more).trans (hx' i more)

theorem DecidesAt.bind [Completable M] {f : Nat → α → Production β} (hx : DecidesAt t L n x)
    (hf : ∀ a, Decides M n fun i => f i a) : DecidesAt t (L * M) n fun i => x i >>= f i :=
  hx.bind_of_le (fun _ _ => Nat.le_add_left _ _) hf

/-- What follows has a token less, since `x` takes one. -/
theorem DecidesAt.bind_succ [Completable M] {f : Nat → α → Production β}
    (hx : DecidesAt t L (n + 1) x) (hL : [] ∉ L) (hf : ∀ a, Decides M n fun i => f i a) :
    DecidesAt t (L * M) (n + 1) fun i => x i >>= f i := by
  refine hx.bind_of_le (fun ts hts => ?_) hf
  have hpos : 0 < ts.length := List.length_pos_of_ne_nil fun h => hL (h ▸ hts)
  omega

theorem DecidesAt.map {f : α → β} (hx : DecidesAt t L n x) :
    DecidesAt t L n fun i => x i >>= fun a => pure (f a) := by
  have h := hx.bind fun a t => decidesAt_pure (t := t) (f a)
  rwa [mul_one] at h

theorem Decides.bind [Completable M] {f : Nat → α → Production β} (hx : Decides L n x)
    (hf : ∀ a, Decides M n fun i => f i a) : Decides (L * M) n fun i => x i >>= f i :=
  fun t => (hx t).bind hf

theorem Decides.map {f : α → β} (hx : Decides L n x) :
    Decides L n fun i => x i >>= fun a => pure (f a) :=
  fun t => (hx t).map

theorem DecidesAt.left (h : DecidesAt t L n x) : DecidesAt t (L + M) n x :=
  h.mono fun _ h => (Language.mem_add ..).mpr (.inl h)

theorem DecidesAt.right (h : DecidesAt t M n x) : DecidesAt t (L + M) n x :=
  h.mono fun _ h => (Language.mem_add ..).mpr (.inr h)

theorem DecidesAt.ite {c : Prop} [Decidable c] (hx : c → DecidesAt t L n x)
    (hy : ¬ c → DecidesAt t L n y) : DecidesAt t L n fun i => if c then x i else y i := by
  split
  · rename_i hc
    exact hx hc
  · rename_i hc
    exact hy hc

theorem DecidesAt.current {f : Nat → Token → Production α}
    (h : DecidesAt t L n fun i => f i t) : DecidesAt t L n fun i => current >>= f i :=
  h.congr fun _ _ => rfl

theorem DecidesAt.atOperator {text : String} {f : Nat → Bool → Production α}
    (h : DecidesAt t L n fun i => f i (t.isOperator text)) :
    DecidesAt t L n fun i => atOperator text >>= f i :=
  h.congr fun _ _ => rfl

theorem DecidesAt.atKeyword {w : Keyword} {f : Nat → Bool → Production α}
    (h : DecidesAt t L n fun i => f i (t.isKeyword w)) :
    DecidesAt t L n fun i => atKeyword w >>= f i :=
  h.congr fun _ _ => rfl

theorem decidesAt_expected (what : Expectation) [Completable L] :
    DecidesAt t L n fun _ => (expected what : Production α) :=
  decidesAt_reject _

theorem decidesAt_advance (hkind : t.kind ≠ .endOfInput) (ht : [t] ∈ L) :
    DecidesAt t L n fun _ => advance := by
  intro ts hts _
  obtain ⟨-, hstream⟩ := hts.tail hkind
  cases ts with
  | nil => cases hstream
  | cons k behind => exact .ok () [t] k behind rfl ht fun _ more => advance_cons hkind

/-- Only a token that a text can have needs to be looked at. -/
theorem DecidesAt.of_lexical (hkind : t.kind ≠ .endOfInput) (h : t.Lexical → DecidesAt t L n x) :
    DecidesAt t L n x :=
  fun ts hts => h (hts.tail hkind).1 ts hts

/-- A token is taken, and what follows has room for one token less. -/
theorem DecidesAt.advance [Completable M] {f : Nat → Unit → Production α}
    (hkind : t.kind ≠ .endOfInput) (ht : [t] ∈ L) (h : Decides M n fun i => f i ()) :
    DecidesAt t (L * M) (n + 1) fun i => advance >>= f i := by
  have htaken : DecidesAt t {[t]} (n + 1) fun _ => Grammar.advance := decidesAt_advance hkind rfl
  refine (htaken.bind_succ (by rintro ⟨⟩) fun _ => h).mono fun us hus => ?_
  obtain ⟨_, rfl, vs, hvs, rfl⟩ := Language.mem_mul.mp hus
  exact Language.append_mem_mul ht hvs

end Grammar

end BlockScript
