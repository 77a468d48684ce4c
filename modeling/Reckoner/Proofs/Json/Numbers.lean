import Reckoner.Proofs.Binary64.Shortest
import Reckoner.Proofs.Digits
import Reckoner.Proofs.Json.Numerals

set_option autoImplicit false

namespace Reckoner

open Json Decimal

namespace Json

def Exponent.value : Option Exponent → ℤ
  | none => 0
  | some e => if e.negative then -(digitsValue e.digits : ℤ) else digitsValue e.digits

namespace Numeral

def fractionDigits (n : Numeral) : List Char := n.fraction.getD []

def rational (n : Numeral) : ℚ :=
  digitsValue (n.whole ++ n.fractionDigits) *
    10 ^ (Exponent.value n.exponent - n.fractionDigits.length)

def toRat (n : Numeral) : ℚ := if n.negative then -n.rational else n.rational

/-- The number is the one that rounds what the numeral writes, with its sign. -/
structure Denotes (n : Numeral) (x : Binary64) : Prop where
  nearest : Binary64.IsTheNearest n.toRat x
  sign : ∃ m e, x = .finite n.negative m e

end Numeral

end Json

namespace Binary64

variable {n : ℕ} {ds es : List Char} {x : Binary64}

theorem isDigits_digitChars (n : ℕ) : IsDigits (digitChars n) :=
  ⟨Nat.toDigits_ne_nil, fun _ hd => Nat.isDigit_of_mem_toDigits (by norm_num) (by norm_num) hd⟩

theorem head_digitChars (hn : 0 < n) : (digitChars n).head? ≠ some '0' := by
  induction n using Nat.strong_induction_on with
  | _ n ih =>
    rw [digitChars]
    by_cases hsmall : n < 10
    · rw [Nat.toDigits_of_lt_base hsmall, List.head?_cons]
      intro h
      exact hn.ne' (Nat.digitChar_eq_zero.mp (Option.some.inj h))
    · have hhead := ih (n / 10) (by omega) (by omega)
      rw [Nat.toDigits_of_base_le (by norm_num) (not_lt.mp hsmall),
        List.head?_append_of_ne_nil _ Nat.toDigits_ne_nil]
      exact hhead

theorem isDigits_append_zeros (hds : IsDigits ds) (n : ℕ) : IsDigits (ds ++ zeros n) := by
  refine ⟨List.append_ne_nil_of_left_ne_nil hds.1 _, fun d hd => ?_⟩
  rcases List.mem_append.mp hd with hd | hd
  · exact hds.2 d hd
  · rw [List.eq_of_mem_replicate hd]
    decide

theorem isDigits_zeros_append (hds : IsDigits ds) (n : ℕ) : IsDigits (zeros n ++ ds) := by
  refine ⟨List.append_ne_nil_of_right_ne_nil _ hds.1, fun d hd => ?_⟩
  rcases List.mem_append.mp hd with hd | hd
  · rw [List.eq_of_mem_replicate hd]
    decide
  · exact hds.2 d hd

theorem isDigits_of_sublist (hds : IsDigits ds) (hsub : es.Sublist ds) (hne : es ≠ []) :
    IsDigits es :=
  ⟨hne, fun d hd => hds.2 d (hsub.subset hd)⟩

theorem digitsValue_zeros (n : ℕ) : digitsValue (zeros n) = 0 := digitsValue_replicate_zero n

/-- The digits with the point after the first `point` of them are worth their value, scaled. -/
theorem exists_positional (hds : IsDigits ds) (hhead : ds.head? ≠ some '0') (point : ℤ) :
    ∃ whole fraction, positionalChars true ds point = whole ++ '.' :: fraction ∧
      IsDigits whole ∧ (whole.head? = some '0' → whole = ['0']) ∧ IsDigits fraction ∧
      (digitsValue (whole ++ fraction) * 10 ^ (-(fraction.length : ℤ)) : ℚ) =
        digitsValue ds * 10 ^ (point - ds.length) := by
  have hzero : IsDigits ['0'] := isDigits_digitChars 0
  unfold positionalChars
  split
  · next hpoint =>
    refine ⟨['0'], zeros (-point).toNat ++ ds, rfl, hzero, fun _ => rfl,
      isDigits_zeros_append hds _, ?_⟩
    have hvalue : digitsValue (['0'] ++ (zeros (-point).toNat ++ ds)) = digitsValue ds := by
      rw [digitsValue_append, digitsValue_append, digitsValue_zeros]
      simp [digitsValue, digitValue]
    have hexponent : -((zeros (-point).toNat ++ ds).length : ℤ) = point - ds.length := by
      rw [List.length_append, zeros, List.length_replicate]
      omega
    rw [hvalue, hexponent]
  · next hpoint =>
    have hn : point.toNat ≠ 0 := by omega
    simp only [if_true]
    split
    · next hlength =>
      refine ⟨ds ++ zeros (point.toNat - ds.length), ['0'], rfl, isDigits_append_zeros hds _, ?_,
        hzero, ?_⟩
      · rw [List.head?_append_of_ne_nil _ hds.1]
        exact fun h => absurd h hhead
      · have hexponent : point - ds.length = ((point.toNat - ds.length : ℕ) : ℤ) := by omega
        rw [digitsValue_append, digitsValue_append, digitsValue_zeros, hexponent, zpow_natCast]
        simp [zeros, digitsValue, digitValue]
    · next hlength =>
      have htake : ds.take point.toNat ≠ [] := by
        rw [Ne, List.take_eq_nil_iff, not_or]
        exact ⟨hn, hds.1⟩
      have hdrop : ds.drop point.toNat ≠ [] := by
        rw [Ne, List.drop_eq_nil_iff]
        exact hlength
      refine ⟨_, _, rfl, isDigits_of_sublist hds (List.take_sublist ..) htake, ?_,
        isDigits_of_sublist hds (List.drop_sublist ..) hdrop, ?_⟩
      · rw [List.head?_take, if_neg hn]
        exact fun h => absurd h hhead
      · have hexponent : -((ds.drop point.toNat).length : ℤ) = point - ds.length := by
          rw [List.length_drop]
          omega
        rw [List.take_append_drop, hexponent]

theorem positional_numeral (hds : IsDigits ds) (hhead : ds.head? ≠ some '0') (point : ℤ)
    (negative : Bool) : ∃ n : Numeral, n.WellFormed ∧
      n.chars = (if negative then ['-'] else []) ++ positionalChars true ds point ∧
      n.negative = negative ∧ n.rational = digitsValue ds * 10 ^ (point - ds.length) := by
  obtain ⟨whole, fraction, hchars, hwhole, hlone, hfraction, hvalue⟩ :=
    exists_positional hds hhead point
  refine ⟨⟨negative, whole, some fraction, none⟩, ⟨hwhole, hlone, ?_, nofun⟩, ?_, rfl, ?_⟩
  · rintro _ ⟨⟩
    exact hfraction
  · rw [hchars, Numeral.chars, fractionChars, Exponent.chars, List.append_nil]
  · rw [← hvalue, Numeral.rational, Exponent.value, zero_sub]
    rfl

def fraction? : List Char → Option (List Char)
  | [] => none
  | d :: ds => some (d :: ds)

theorem getD_fraction? (ds : List Char) : (fraction? ds).getD [] = ds := by
  cases ds <;> rfl

theorem isDigits_of_fraction? (hds : ∀ d ∈ ds, d.isDigit = true) :
    ∀ fs ∈ fraction? ds, IsDigits fs := by
  cases ds with
  | nil => exact fun _ h => absurd h (Option.not_mem_none _)
  | cons d ds =>
    intro fs hfs
    rw [← Option.some.inj hfs]
    exact ⟨List.cons_ne_nil d ds, hds⟩

theorem scientific_numeral (hds : IsDigits ds) (hhead : ds.head? ≠ some '0') (point : ℤ)
    (negative : Bool) : ∃ n : Numeral, n.WellFormed ∧
      n.chars = (if negative then ['-'] else []) ++ scientificChars ds (point - 1) ∧
      n.negative = negative ∧ n.rational = digitsValue ds * 10 ^ (point - ds.length) := by
  obtain ⟨d, rest, rfl⟩ := List.exists_cons_of_ne_nil hds.1
  obtain ⟨hd, hrest⟩ := List.forall_mem_cons.mp hds.2
  have hwhole : IsDigits [d] := ⟨List.cons_ne_nil d [], by simpa using hd⟩
  refine ⟨⟨negative, [d], fraction? rest, some ⟨point - 1 < 0, digitChars (point - 1).natAbs⟩⟩,
    ⟨hwhole, fun h => absurd h hhead, isDigits_of_fraction? hrest, fun e he => ?_⟩, ?_, rfl, ?_⟩
  · rw [← Option.some.inj he]
    exact isDigits_digitChars _
  · cases rest <;>
      simp [Numeral.chars, fractionChars, Exponent.chars, scientificChars, fraction?]
  · have hexponent : Exponent.value (some ⟨point - 1 < 0, digitChars (point - 1).natAbs⟩) =
        point - 1 := by
      simp only [Exponent.value, digitChars, digitsValue_toDigits, decide_eq_true_eq]
      split <;> omega
    have hlength : point - 1 - (rest.length : ℤ) = point - (d :: rest).length := by
      rw [List.length_cons]
      push_cast
      ring
    rw [Numeral.rational, Numeral.fractionDigits, getD_fraction?, hexponent, hlength]
    rfl

theorem magnitude_numeral {m : ℕ} {e : ℤ} {s : Bool} (hx : Canonical (.finite s m e)) :
    ∃ n : Numeral, n.WellFormed ∧
      n.chars = (if s then ['-'] else []) ++ Layout.json.magnitude m e ∧ n.negative = s ∧
      n.rational = (shortest Layout.json.up m e).coefficient *
        10 ^ (shortest Layout.json.up m e).exponent := by
  by_cases hm : m = 0
  · subst hm
    refine ⟨⟨s, ['0'], some ['0'], none⟩, ⟨isDigits_digitChars 0, fun _ => rfl, ?_, nofun⟩, rfl,
      rfl, ?_⟩
    · rintro _ ⟨⟩
      exact isDigits_digitChars 0
    · simp [Numeral.rational, Numeral.fractionDigits, shortest, digitsValue, digitValue]
  · have hcoefficient := coefficient_pos Layout.json.up hm hx.1 hx.2.1 hx.2.2.1
    simp only [Layout.magnitude, hm, if_false]
    generalize shortest Layout.json.up m e = d at hcoefficient
    have hds := isDigits_digitChars d.coefficient
    have hhead := head_digitChars hcoefficient
    have hvalue : (digitsValue (digitChars d.coefficient) : ℚ) *
        10 ^ (d.exponent + (digitChars d.coefficient).length -
          (digitChars d.coefficient).length) = d.coefficient * 10 ^ d.exponent := by
      rw [add_sub_cancel_right, digitChars, digitsValue_toDigits]
    rw [← hvalue]
    by_cases hplace : Layout.json.positional
        (d.exponent + (digitChars d.coefficient).length - 1) = true
    · rw [if_pos hplace]
      exact positional_numeral hds hhead _ s
    · rw [if_neg hplace]
      exact scientific_numeral hds hhead _ s

theorem Canonical.eq_zero {e : ℤ} {s : Bool} (hx : Canonical (.finite s 0 e)) :
    .finite s 0 e = zero s := by
  have hleast : e = minExponent := hx.2.2.2.resolve_left (by decide)
  rw [hleast, zero]

theorem isTheNearest_signed {m : ℕ} {e : ℤ} {s : Bool} (hx : Canonical (.finite s m e)) {r : ℚ}
    (hr : r = (shortest Layout.json.up m e).coefficient *
      10 ^ (shortest Layout.json.up m e).exponent) :
    IsTheNearest (if s then -r else r) (.finite s m e) := by
  have hpositive : IsTheNearest r (.finite false m e) := by
    by_cases hm : m = 0
    · subst hm
      have hx' : Canonical (.finite false 0 e) := hx
      rw [hr, shortest, if_pos rfl, Nat.cast_zero, zero_mul, hx'.eq_zero]
      exact isTheNearest_zero
    · rw [hr]
      exact shortest_isTheNearest _ hm hx
  cases s with
  | false => exact hpositive
  | true => exact hpositive.neg

/-- The JSON text of a number of the format is a numeral, and it denotes that number. -/
theorem Canonical.exists_numeral (hx : x.Canonical) :
    ∃ n : Numeral, n.WellFormed ∧ n.chars = x.jsonText.toList ∧ n.Denotes x := by
  cases x with
  | infinite | nan => exact hx.elim
  | finite s m e =>
    obtain ⟨n, hn, hchars, rfl, hvalue⟩ := magnitude_numeral hx
    rw [jsonText, Layout.finiteText, String.toList_ofList]
    exact ⟨n, hn, hchars, isTheNearest_signed hx hvalue, m, e, rfl⟩

end Binary64

end Reckoner
