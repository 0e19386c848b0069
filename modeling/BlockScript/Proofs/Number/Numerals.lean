import BlockScript.Number.DecimalText
import BlockScript.Proofs.Token.Spelling

/-!
# Numerals

A numeral is a sign or none, digits, and for a decimal a point and more digits. The text of its
value is the numeral in plain form, without a plus and without zeros before another digit. The text
of an integer, and of a decimal that has places, is in turn a numeral of just that number.
-/

namespace BlockScript

namespace Number

/-- A text without the zeros at its front that another digit follows. -/
def trimZeros : List Char → List Char
  | '0' :: d :: cs => if d.isDigit then trimZeros (d :: cs) else '0' :: d :: cs
  | cs => cs

/-- A numeral without a plus and without redundant zeros. -/
def plain : List Char → List Char
  | '+' :: cs => trimZeros cs
  | '-' :: cs => '-' :: trimZeros cs
  | cs => trimZeros cs

/-- The plain form of a whole numeral, in which zero has no sign. -/
def plainWhole (cs : List Char) : List Char := if plain cs = ['-', '0'] then ['0'] else plain cs

variable {c : Char} {cs ds sign whole places : List Char} {n : Nat}

/-! ## Digits of a value -/

theorem toDigits_digit (hc : c.isDigit) : Nat.toDigits 10 (c.toNat - '0'.toNat) = [c] := by
  obtain ⟨h₀, h₉⟩ : 48 ≤ c.toNat ∧ c.toNat ≤ 57 := Char.isDigit_iff_toNat.mp hc
  have hvalue : c.toNat - 48 < 10 := by omega
  have hchar : (c.toNat - 48).digitChar = c := by
    rw [← Char.toNat_inj, Nat.toNat_digitChar_of_lt_ten hvalue]
    omega
  change Nat.toDigits 10 (c.toNat - 48) = [c]
  rw [Nat.toDigits_of_lt_base hvalue, hchar]

/-- Digits read behind a positive number are written behind its own. -/
theorem toDigits_ofDigitChars (hn : 0 < n) (hds : ∀ d ∈ ds, d.isDigit) :
    Nat.toDigits 10 (Nat.ofDigitChars 10 ds n) = Nat.toDigits 10 n ++ ds := by
  induction ds generalizing n with
  | nil => simp
  | cons d ds ih =>
    obtain ⟨hd, hds⟩ := List.forall_mem_cons.mp hds
    have hvalue : d.toNat - '0'.toNat < 10 := by
      have h₉ : d.toNat ≤ 57 := (Char.isDigit_iff_toNat.mp hd).2
      have h₀ : '0'.toNat = 48 := rfl
      omega
    rw [Nat.ofDigitChars_cons, ih (by omega) hds,
      ← Nat.toDigits_append_toDigits (by decide) hn hvalue, toDigits_digit hd, List.append_assoc,
      List.singleton_append]

theorem natural_cons (c : Char) (ds : List Char) :
    natural (c :: ds) = Nat.ofDigitChars 10 ds (c.toNat - '0'.toNat) := by
  rw [natural, Nat.ofDigitChars_cons, Nat.mul_zero, Nat.zero_add]

theorem trimZeros_cons (hc : c ≠ '0') (cs : List Char) : trimZeros (c :: cs) = c :: cs := by
  unfold trimZeros
  split
  · simp_all
  · rfl

theorem toDigits_natural (hne : ds ≠ []) (hds : ∀ d ∈ ds, d.isDigit) :
    Nat.toDigits 10 (natural ds) = trimZeros ds := by
  fun_induction trimZeros ds with
  | case1 d cs _ ih =>
    have hzero : natural ('0' :: d :: cs) = natural (d :: cs) := by rw [natural_cons]; rfl
    rw [hzero, ih (List.cons_ne_nil d cs) (List.forall_mem_cons.mp hds).2]
  | case2 d cs hd => exact absurd (hds d (by simp)) hd
  | case3 cs hcs =>
    obtain ⟨c, cs, rfl⟩ := List.exists_cons_of_ne_nil hne
    obtain ⟨hc, hds⟩ := List.forall_mem_cons.mp hds
    rw [natural_cons]
    cases cs with
    | nil => exact toDigits_digit hc
    | cons d cs =>
      -- The first of several digits that are left is not zero.
      have hpos : 0 < c.toNat - '0'.toNat := by
        have h₀ := (Char.isDigit_iff_toNat.mp hc).1
        have hne : c.toNat ≠ '0'.toNat := fun h => hcs d cs (by rw [Char.toNat_inj.mp h])
        omega
      rw [toDigits_ofDigitChars hpos hds, toDigits_digit hc, List.singleton_append]

theorem natural_toDigits (n : Nat) : natural (Nat.toDigits 10 n) = n :=
  Nat.ofDigitChars_ten_toDigits

theorem isDigit_toDigits (n : Nat) : ∀ d ∈ Nat.toDigits 10 n, d.isDigit := fun _ hd =>
  Nat.isDigit_of_mem_toDigits (by decide) (by decide) hd

theorem natural_zeros (k : Nat) (ds : List Char) :
    natural (List.replicate k '0' ++ ds) = natural ds := by
  simp [natural, Nat.ofDigitChars_append, Nat.ofDigitChars_replicate_zero]

/-! ## Leading zeros -/

theorem zeros_append_trimZeros (cs : List Char) :
    ∃ k, List.replicate k '0' ++ trimZeros cs = cs := by
  fun_induction trimZeros cs with
  | case1 d cs _ ih =>
    obtain ⟨k, hk⟩ := ih
    exact ⟨k + 1, congrArg ('0' :: ·) hk⟩
  | case2 | case3 => exact ⟨0, rfl⟩

/-- Zeros up to the old length give the old text again. -/
theorem pad_trimZeros (cs : List Char) :
    List.replicate (cs.length - (trimZeros cs).length) '0' ++ trimZeros cs = cs := by
  obtain ⟨k, hk⟩ := zeros_append_trimZeros cs
  have hlength := congrArg List.length hk
  rw [List.length_append, List.length_replicate] at hlength
  rwa [← hlength, Nat.add_sub_cancel]

/-- Zeros up to one digit before the places give the digits that are not redundant. -/
theorem pad_places (hne : whole ≠ []) (hds : ∀ d ∈ whole, d.isDigit) (places : List Char) :
    List.replicate (places.length + 1 - (trimZeros (whole ++ places)).length) '0' ++
      trimZeros (whole ++ places) = trimZeros whole ++ places := by
  fun_induction trimZeros whole with
  | case1 d cs hd ih =>
    have htrim : trimZeros ('0' :: d :: cs ++ places) = trimZeros (d :: cs ++ places) := if_pos hd
    rw [htrim]
    exact ih (List.cons_ne_nil d cs) (List.forall_mem_cons.mp hds).2
  | case2 d cs hd => exact absurd (hds d (by simp)) hd
  | case3 cs hcs =>
    obtain ⟨c, cs, rfl⟩ := List.exists_cons_of_ne_nil hne
    cases cs with
    | nil => exact pad_trimZeros (c :: places)
    | cons d cs =>
      have hc : c ≠ '0' := by rintro rfl; exact hcs d cs rfl
      have hlength : places.length + 1 - (c :: d :: cs ++ places).length = 0 := by
        simp only [List.length_append, List.length_cons]
        omega
      rw [List.cons_append, trimZeros_cons hc, ← List.cons_append, hlength]
      rfl

/-- A point ends the zeros that may be redundant. -/
theorem trimZeros_point (hne : whole ≠ []) (hds : ∀ d ∈ whole, d.isDigit) (places : List Char) :
    trimZeros (whole ++ '.' :: places) = trimZeros whole ++ '.' :: places := by
  fun_induction trimZeros whole with
  | case1 d cs hd ih =>
    have htrim : trimZeros ('0' :: d :: cs ++ '.' :: places) =
      trimZeros (d :: cs ++ '.' :: places) := if_pos hd
    rw [htrim, ih (List.cons_ne_nil d cs) (List.forall_mem_cons.mp hds).2]
  | case2 d cs hd => exact absurd (hds d (by simp)) hd
  | case3 cs hcs =>
    obtain ⟨c, cs, rfl⟩ := List.exists_cons_of_ne_nil hne
    by_cases hc : c = '0'
    · subst hc
      cases cs with
      | nil => rfl
      | cons d cs => exact (hcs d cs rfl).elim
    · rw [List.cons_append, trimZeros_cons hc, ← List.cons_append]

/-! ## Signs -/

/-- What may stand before the digits of a numeral. -/
def IsSign (sign : List Char) : Prop := sign = [] ∨ sign = ['+'] ∨ sign = ['-']

theorem digit_ne_sign (hc : c.isDigit) : c ≠ '-' ∧ c ≠ '+' := by
  constructor <;> rintro rfl <;> revert hc <;> decide

theorem splitSign_append (hsign : IsSign sign) (hne : ds ≠ []) (hds : ∀ d ∈ ds, d.isDigit)
    (cs : List Char) : splitSign (sign ++ (ds ++ cs)) = (decide (sign = ['-']), ds ++ cs) := by
  rcases hsign with rfl | rfl | rfl
  · obtain ⟨d, ds, rfl⟩ := List.exists_cons_of_ne_nil hne
    obtain ⟨hminus, hplus⟩ := digit_ne_sign (hds d (by simp))
    simp [splitSign, hminus, hplus]
  · rfl
  · rfl

theorem plain_append (hsign : IsSign sign) (hne : ds ≠ []) (hds : ∀ d ∈ ds, d.isDigit)
    (cs : List Char) : plain (sign ++ (ds ++ cs)) =
      if sign = ['-'] then '-' :: trimZeros (ds ++ cs) else trimZeros (ds ++ cs) := by
  rcases hsign with rfl | rfl | rfl
  · obtain ⟨d, ds, rfl⟩ := List.exists_cons_of_ne_nil hne
    obtain ⟨hminus, hplus⟩ := digit_ne_sign (hds d (by simp))
    simp [plain, hminus, hplus]
  · rfl
  · rfl

/-! ## Integers -/

theorem integer_append (hsign : IsSign sign) (hne : ds ≠ []) (hds : ∀ d ∈ ds, d.isDigit) :
    integer (sign ++ ds) = if sign = ['-'] then -(natural ds : Int) else natural ds := by
  have hsplit := splitSign_append hsign hne hds []
  simp only [List.append_nil] at hsplit
  simp only [integer, hsplit, decide_eq_true_eq]

theorem toString_toList (n : Int) : (toString n).toList =
    if n < 0 then '-' :: Nat.toDigits 10 n.natAbs else Nat.toDigits 10 n.natAbs := by
  cases n with
  | ofNat n =>
    have htext : toString (Int.ofNat n) = n.repr := rfl
    rw [htext, Nat.repr_eq_ofList_toDigits, String.toList_ofList, if_neg (by simp)]
    rfl
  | negSucc n =>
    have htext : toString (Int.negSucc n) = "-" ++ (n + 1).repr := rfl
    rw [htext, Nat.repr_eq_ofList_toDigits, String.toList_append, String.toList_ofList,
      String.toList_ofList, if_pos (Int.negSucc_lt_zero n), Int.natAbs_negSucc]
    rfl

/-- The text of an integer is a numeral of that integer. -/
theorem integer_toString (n : Int) :
    IsWhole (toString n).toList ∧ integer (toString n).toList = n := by
  have hne : Nat.toDigits 10 n.natAbs ≠ [] := Nat.toDigits_ne_nil
  have hds := isDigit_toDigits n.natAbs
  rw [toString_toList]
  split
  · have hminus : IsSign ['-'] := .inr (.inr rfl)
    have hvalue := integer_append hminus hne hds
    rw [if_pos rfl, natural_toDigits] at hvalue
    refine ⟨⟨['-'], _, rfl, hminus, hne, hds⟩, hvalue.trans ?_⟩
    omega
  · have hvalue := integer_append (.inl rfl) hne hds
    rw [if_neg nofun, natural_toDigits] at hvalue
    refine ⟨⟨[], _, rfl, .inl rfl, hne, hds⟩, hvalue.trans ?_⟩
    omega

/-- The text of what a whole numeral denotes is the numeral in plain form. -/
theorem toString_integer (h : IsWhole cs) : (toString (integer cs)).toList = plainWhole cs := by
  obtain ⟨sign, ds, rfl, hsign, hne, hds⟩ := h
  have hplain := plain_append hsign hne hds []
  rw [List.append_nil, ← toDigits_natural hne hds] at hplain
  rw [plainWhole, hplain, integer_append hsign hne hds, toString_toList]
  by_cases hminus : sign = ['-']
  · simp only [if_pos hminus, Int.natAbs_neg, Int.natAbs_natCast]
    by_cases hzero : natural ds = 0
    · rw [hzero]
      rfl
    · have hdigits : Nat.toDigits 10 (natural ds) ≠ ['0'] := by
        intro hdigits
        exact hzero (by rw [← natural_toDigits (natural ds), hdigits]; rfl)
      rw [if_pos (by omega), if_neg (by simpa using hdigits)]
  · have hdigits : Nat.toDigits 10 (natural ds) ≠ ['-', '0'] := by
      intro hdigits
      have hdigit := isDigit_toDigits (natural ds) '-' (by rw [hdigits]; simp)
      revert hdigit
      decide
    simp only [if_neg hminus, Int.natAbs_natCast]
    rw [if_neg (by omega), if_neg hdigits]

end Number

/-! ## Decimals -/

namespace Decimal

open Number

variable {cs sign whole places : List Char} {d : Decimal}

theorem ofNumeral_append (hsign : IsSign sign) (hne : whole ≠ []) (hwhole : ∀ d ∈ whole, d.isDigit)
    (hplaces : ∀ d ∈ places, d.isDigit) : ofNumeral (sign ++ (whole ++ '.' :: places)) =
      ⟨decide (sign = ['-']), natural (whole ++ places), -places.length⟩ := by
  obtain ⟨htake, hdrop⟩ := Token.span_append (r := '.' :: places) hwhole (by simp)
  obtain ⟨htake', hdrop'⟩ := Token.span_append (r := []) hplaces (by simp)
  rw [List.append_nil] at htake' hdrop'
  simp only [ofNumeral, splitSign_append hsign hne hwhole, htake, hdrop, splitFraction, htake',
    hdrop', splitExponent, Int.zero_sub]

/-- The digits of the coefficient, with zeros in front up to one digit before the places. -/
def padded (d : Decimal) : List Char :=
  List.replicate ((-d.exponent).toNat + 1 - (Nat.toDigits 10 d.coefficient).length) '0' ++
    Nat.toDigits 10 d.coefficient

theorem lt_padded_length (d : Decimal) : (-d.exponent).toNat < d.padded.length := by
  simp only [padded, List.length_append, List.length_replicate]
  omega

theorem isDigit_padded (d : Decimal) : ∀ c ∈ d.padded, c.isDigit := by
  intro c hc
  rcases List.mem_append.mp hc with hzero | hdigit
  · rw [List.eq_of_mem_replicate hzero]
    rfl
  · exact isDigit_toDigits _ c hdigit

theorem digits_eq_padded (h : d.exponent ≤ -1) :
    d.digits = d.padded.take (d.padded.length - (-d.exponent).toNat) ++
      '.' :: d.padded.drop (d.padded.length - (-d.exponent).toNat) := by
  have hplaces : (-d.exponent).toNat ≠ 0 := by omega
  rw [digits, if_neg hplaces]
  rfl

/-- A decimal with places is written as the digits of its coefficient, a point among them. -/
theorem digits_split (h : d.exponent ≤ -1) : ∃ whole places, d.digits = whole ++ '.' :: places ∧
    whole ≠ [] ∧ (∀ c ∈ whole, c.isDigit) ∧ (∀ c ∈ places, c.isDigit) ∧
    (places.length : Int) = -d.exponent ∧ natural (whole ++ places) = d.coefficient := by
  have hlength := d.lt_padded_length
  refine ⟨_, _, digits_eq_padded h, ?_, ?_, ?_, ?_, ?_⟩
  · rw [← List.length_pos_iff, List.length_take]
    omega
  · exact fun c hc => d.isDigit_padded c (List.mem_of_mem_take hc)
  · exact fun c hc => d.isDigit_padded c (List.mem_of_mem_drop hc)
  · rw [List.length_drop]
    omega
  · rw [List.take_append_drop, padded, natural_zeros, natural_toDigits]

theorem digits_natural (b : Bool) (hne : whole ≠ []) (hwhole : ∀ d ∈ whole, d.isDigit)
    (hne' : places ≠ []) (hplaces : ∀ d ∈ places, d.isDigit) :
    digits ⟨b, natural (whole ++ places), -places.length⟩ = trimZeros (whole ++ '.' :: places) := by
  have hds : ∀ d ∈ whole ++ places, d.isDigit := List.forall_mem_append.mpr ⟨hwhole, hplaces⟩
  have hlength := List.length_pos_iff.mpr hne'
  have hpadded : padded ⟨b, natural (whole ++ places), -places.length⟩ =
      trimZeros whole ++ places := by
    rw [padded, toDigits_natural (List.append_ne_nil_of_left_ne_nil hne places) hds, Int.neg_neg,
      Int.toNat_natCast, pad_places hne hwhole]
  rw [digits_eq_padded (by simp only; omega), hpadded, Int.neg_neg, Int.toNat_natCast,
    List.length_append, Nat.add_sub_cancel, List.take_left, List.drop_left,
    trimZeros_point hne hwhole]

theorem toText_toList (d : Decimal) :
    d.toText.toList = (if d.negative then ['-'] else []) ++ d.digits := by
  rw [toText, String.toList_ofList]
  split <;> rfl

/-- The text of a decimal with places is a numeral of that decimal. -/
theorem ofNumeral_toText (h : d.exponent ≤ -1) :
    IsFractional d.toText.toList ∧ ofNumeral d.toText.toList = d := by
  obtain ⟨whole, places, hdigits, hne, hwhole, hplaces, hlength, hvalue⟩ := digits_split h
  have hne' : places ≠ [] := by rintro rfl; simp at hlength; omega
  have hsign : IsSign (if d.negative then ['-'] else []) := by
    split
    · exact .inr (.inr rfl)
    · exact .inl rfl
  have hnegative : decide ((if d.negative then ['-'] else []) = ['-']) = d.negative := by
    cases d.negative <;> rfl
  rw [toText_toList, hdigits, ofNumeral_append hsign hne hwhole hplaces, hnegative, hvalue, hlength,
    Int.neg_neg]
  exact ⟨⟨_, places, (List.append_assoc _ _ _).symm, ⟨_, whole, rfl, hsign, hne, hwhole⟩, hne',
    hplaces⟩, rfl⟩

/-- The text of what a numeral with a point denotes is the numeral in plain form. -/
theorem toText_ofNumeral (h : IsFractional cs) : (ofNumeral cs).toText.toList = plain cs := by
  obtain ⟨_, places, rfl, ⟨sign, whole, rfl, hsign, hne, hwhole⟩, hne', hplaces⟩ := h
  rw [List.append_assoc, ofNumeral_append hsign hne hwhole hplaces, plain_append hsign hne hwhole,
    toText_toList, digits_natural _ hne hwhole hne' hplaces]
  by_cases hminus : sign = ['-'] <;> simp [hminus]

end Decimal

end BlockScript
