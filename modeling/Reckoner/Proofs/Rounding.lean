import Reckoner.Proofs.Classification
import Reckoner.Proofs.Exact.Evaluation
import Reckoner.Proofs.Kinds
import Reckoner.Proofs.Reader.Grammar
import Reckoner.Proofs.Token.Joining

set_option autoImplicit false

namespace Reckoner

/-- The expression inside a call that rounds it to `n` decimals. -/
def roundText (expression : String) (n : Nat) : String :=
  "round(" ++ expression ++ ", " ++ toString n ++ ")"

theorem Decimal.tenPow_pos (n : ℕ) : 0 < tenPow n :=
  Int.natCast_pos.mpr (Nat.pow_pos (by norm_num))

theorem Binary64.ofDecimal_mul_tenPow (m : ℤ) {n p : ℕ} (hnp : n ≤ p) (hp : p ≤ 64) :
    ofDecimal (m * Decimal.tenPow (p - n)) p = ofDecimal m n := by
  have hpow : (10 : ℚ) ^ p = 10 ^ (p - n) * 10 ^ n := by rw [← pow_add, Nat.sub_add_cancel hnp]
  have hcast : ((Decimal.tenPow (p - n) : ℤ) : ℚ) = 10 ^ (p - n) :=
    Decimal.cast_tenPow (Decimal.lt_exponentEnd ((Nat.sub_le p n).trans hp))
  have hsame : ((m * Decimal.tenPow (p - n) : ℤ) / 10 ^ p : ℚ) = m / 10 ^ n := by
    rw [Int.cast_mul, hcast, hpow, mul_comm (m : ℚ), mul_div_mul_left _ _ (by positivity)]
  have hpos := Decimal.tenPow_pos (p - n)
  have hsign : m * Decimal.tenPow (p - n) < 0 ↔ m < 0 :=
    ⟨fun h => neg_of_mul_neg_left h hpos.le, fun h => mul_neg_of_neg_of_pos h hpos⟩
  have hfine := ofDecimal_spec (m * Decimal.tenPow (p - n)) hp
  rw [hsame] at hfine
  rcases ofDecimal_spec m (hnp.trans hp) with ⟨hover, hinf⟩ | ⟨hsmall, hiff⟩
  · rcases hfine with ⟨-, hinf'⟩ | ⟨hsmall', -⟩
    · rw [hinf, hinf', decide_eq_decide.mpr hsign]
    · exact absurd hover hsmall'.not_ge
  · rcases hfine with ⟨hover', -⟩ | ⟨-, hiff'⟩
    · exact absurd hover' hsmall.not_ge
    · exact (hiff' _).mpr ((hiff _).mp rfl)

namespace Decimal

theorem tenPow_add {a b : ℕ} (h : a + b < exponentEnd) :
    tenPow (a + b) = tenPow a * tenPow b := by
  rw [tenPow_of_lt h, tenPow_of_lt (by omega), tenPow_of_lt (by omega), ← Nat.cast_mul]
  exact congrArg Nat.cast (pow_add 10 a b)

/-- A value rounded to `n` places is on the coarser grid of `p` places as it is. -/
theorem rescale_roundTo (x : ℤ) {n p : ℕ} (hnp : n ≤ p) (hp : p ≤ places) :
    rescale (roundTo x n) places p = rescale x places n * tenPow (p - n) := by
  have hkept : n.min places = n := min_eq_left (hnp.trans hp)
  have hsplit : tenPow (places - n) = tenPow (p - n) * tenPow (places - p) := by
    rw [← tenPow_add (lt_exponentEnd (by omega))]
    congr 1
    omega
  have hpos := tenPow_pos (places - p)
  rw [roundTo, hkept, hsplit, ← mul_assoc]
  generalize rescale x places n * tenPow (p - n) = k
  rw [rescale]
  split
  · next hle =>
    obtain rfl : p = places := le_antisymm hp hle
    simp [tenPow]
  · simp only [Int.mul_tdiv_cancel _ hpos.ne', Int.mul_tmod_left]
    exact if_neg (by simpa using hpos)

end Decimal

namespace Evaluator

open Token (Kind Scans)

variable {ev : Evaluator} {s normal : String} {tokens : List Token} {program : Program} {n p : ℕ}

theorem classify_roundTo (v : Number) (hnp : n ≤ p) (hp : p ≤ 64) :
    classify p (v.roundTo n) = classify n v := by
  have hvalue : (v.roundTo n).toBinary64 (min p precisionLimit) =
      v.toBinary64 (min n precisionLimit) := by
    rw [min_eq_left (show p ≤ precisionLimit from hp),
      min_eq_left (show n ≤ precisionLimit from hnp.trans hp)]
    cases v with
    | finite x =>
      rw [Number.roundTo, Number.toBinary64, Decimal.rescale_roundTo x hnp hp,
        Binary64.ofDecimal_mul_tenPow _ hnp hp, Number.toBinary64]
    | posInf | negInf | nan => rfl
  rw [classify, hvalue, classify]

theorem roundPlaces?_natural (hn : n ≤ 64) :
    (Number.finite (n * Decimal.one)).roundPlaces? = some n := by
  have hvalue : Decimal.toRat (n * Decimal.one) = (n : ℤ) := Decimal.toRat_ofInt n
  have hround := (Decimal.roundPlaces?_of_exact (a := n * Decimal.one) (by simp [hvalue])
    (by simp [hvalue]) (by rw [hvalue]; exact_mod_cast hn)).1
  rw [hvalue] at hround
  simpa using hround

def roundEnd (n : ℕ) : List Char := ',' :: ' ' :: ((toString n).toList ++ [')'])

theorem toList_roundText (s : String) (n : ℕ) :
    (roundText s n).toList = "round".toList ++ '(' :: (s.toList ++ roundEnd n) := by
  simp only [roundText, String.toList_append, roundEnd, List.append_assoc]
  rfl

theorem trim_roundText (s : String) (n : ℕ) : Text.trim (roundText s n) = roundText s n := by
  have hlast : (roundText s n).toList.getLast? = some ')' := by
    rw [roundText, String.toList_append]
    exact List.getLast?_concat
  rw [Text.trim, Text.trimChars_eq_self, String.ofList_toList]
  · rw [toList_roundText]
    rintro c ⟨⟩
    decide
  · rw [hlast]
    rintro c ⟨⟩
    decide

theorem isWordStart_roundEnd (n : ℕ) : ∀ c ∈ roundEnd n, Text.isWordStart c = false := by
  intro c hc
  simp only [roundEnd, List.mem_cons, List.mem_append, List.not_mem_nil, or_false] at hc
  rcases hc with rfl | rfl | hc | rfl
  · rfl
  · rfl
  · exact Token.isWordStart_of_isDigit (Token.isDigit_of_mem_natural hc)
  · rfl

theorem normalize_roundText (s : String) (n : ℕ) :
    Text.normalize (roundText s n) = roundText (Text.normalize s) n := by
  have hend : Text.pieces (roundEnd n) = (roundEnd n).map .other := by
    have h : Text.pieces (roundEnd n ++ []) = _ :=
      Text.pieces_append_others (isWordStart_roundEnd n)
    rwa [Text.pieces_nil, List.append_nil, List.append_nil] at h
  have hround : (Text.Piece.word "round".toList).canonical = .word "round".toList := by decide
  have hstops (cs : List Char) : Text.Stops ('(' :: cs) := by
    rintro c ⟨⟩
    rfl
  have hstopsEnd : Text.Stops (roundEnd n) := by
    rintro c ⟨⟩
    rfl
  have hinside : (Text.normalize s).toList =
      Text.joined ((Text.pieces s.toList).map Text.Piece.canonical) := by
    rw [Text.normalize_eq, String.toList_ofList]
  rw [← String.toList_inj, toList_roundText, hinside, Text.normalize_eq, String.toList_ofList,
    toList_roundText, Text.pieces_append_stops (by decide) (hstops _), Text.pieces_other (by decide),
    Text.pieces_append hstopsEnd, hend, List.map_cons, List.map_cons, List.map_append, hround]
  change "round".toList ++ '(' :: Text.joined _ = _
  rw [Text.joined_append, Text.joined_canonical_others]

def roundKinds (ks : List Kind) (n : ℕ) : List Kind :=
  .word "round" :: .openParen :: ks ++ [.comma, .number (n * Decimal.one), .closeParen]

theorem scans_roundText (hnormal : ev.normalize s = .ok normal)
    (htokens : Token.ofText normal = .ok tokens) (n : ℕ) :
    Scans (roundText (Text.normalize s) n).toList (roundKinds (tokens.map Token.kind) n) := by
  obtain ⟨rfl, -⟩ := normalize_eq_ok hnormal
  obtain ⟨lead, trail, hs, hlead, htrail⟩ := Text.exists_blanks_normalize s
  have hclose : Scans [')'] [.closeParen] := Scans.nil.symbol rfl
  have hnumber : Scans ((toString n).toList ++ [')']) [.number (n * Decimal.one), .closeParen] :=
    hclose.spelled (Token.spelled_natural n) (by rintro c ⟨⟩; rfl)
  have hend : Scans (roundEnd n) [.comma, .number (n * Decimal.one), .closeParen] :=
    (hnumber.blank (by decide)).symbol rfl
  have hends : Token.Ends (trail ++ roundEnd n) := by
    refine (Token.Ends.of_isBlank htrail).append ?_
    rintro c ⟨⟩
    decide
  have hinside := (Scans.append htokens hends (hend.blanks htrail)).blanks hlead
  rw [toList_roundText, hs]
  simp only [List.append_assoc]
  exact (hinside.symbol rfl).spelled (.word (by decide)) (by rintro c ⟨⟩; rfl)

theorem writes_roundKinds {ts : List Token} {e : Expr} (he : Grammar.Writes tokens e)
    (hnested : Grammar.NestsWithin 127 (tokens.map Token.kind))
    (hts : ts.map Token.kind = roundKinds (tokens.map Token.kind) n) :
    Grammar.Writes ts (.call .round [e, .number (n * Decimal.one)]) := by
  have hsum : Grammar.Derives .sum 127 (tokens.map Token.kind) [e] := he.ofNestsWithin hnested
  have hnumber : Grammar.Derives .sum 127 [.number (n * Decimal.one)] [.number (n * Decimal.one)] :=
    (Grammar.Derives.number 127 _).lift (by decide)
  have hcall := Grammar.Derives.call (w := "round") (Function.named?_name .round)
    (.nextArgument (.oneArgument hsum) hnumber)
  rw [Grammar.Writes, hts, roundKinds]
  have hatom : Grammar.Derives .sum depthLimit _ _ := hcall.lift (by decide)
  simpa using hatom

theorem compile_roundText (hnormal : ev.normalize s = .ok normal)
    (hcompile : compile normal = .ok (tokens, program))
    (hnested : Grammar.NestsWithin 127 (tokens.map Token.kind)) (n : ℕ) :
    ∃ us e, us.map Token.kind = roundKinds (tokens.map Token.kind) n ∧ e.program = program ∧
      compile (roundText (Text.normalize s) n) =
        .ok (us, (Expr.call .round [e, .number (n * Decimal.one)]).program) := by
  obtain ⟨htokens, e, he, hprogram⟩ := compile_eq_ok_iff.mp hcompile
  obtain ⟨us, hus, hkinds⟩ := scans_roundText hnormal htokens n 0
  exact ⟨us, e, hkinds, hprogram,
    compile_eq_ok_iff.mpr ⟨hus, _, writes_roundKinds he hnested hkinds, rfl⟩⟩

theorem normalize_call {us : List Token} (hnormal : ev.normalize s = .ok normal)
    (htokens : Token.ofText normal = .ok tokens)
    (hus : Token.ofText (roundText (Text.normalize s) n) = .ok us)
    (hkinds : us.map Token.kind = roundKinds (tokens.map Token.kind) n)
    (hlength : (roundText s n).length ≤ ev.maxLength) :
    ev.normalize (roundText s n) = .ok (roundText (Text.normalize s) n) := by
  have hallowed : ∀ u ∈ us, ∀ name, u.kind = .word name → Catalogue.contains name = true := by
    intro u hu name hname
    have hmem : Kind.word name ∈ roundKinds (tokens.map Token.kind) n :=
      hkinds ▸ hname ▸ List.mem_map_of_mem hu
    simp only [roundKinds, List.cons_append, List.mem_cons, List.mem_append, List.mem_map,
      Kind.word.injEq, reduceCtorEq, List.not_mem_nil, or_false, false_or] at hmem
    rcases hmem with rfl | ⟨t, ht, hkind⟩
    · decide
    · exact (vetted_of_normalize hnormal htokens).allowed t ht name hkind
  obtain ⟨hself, hcheck⟩ := Text.normalize_eq_self (contains_of_kinds hus rfl hallowed)
  have hne : roundText s n ≠ "" := by
    rw [ne_eq, ← String.toList_eq_nil_iff, toList_roundText]
    exact List.cons_ne_nil _ _
  rw [normalize_eq, trim_roundText, if_neg hne, if_neg (Nat.not_lt.mpr hlength),
    normalize_roundText, hcheck]
  rfl

theorem eval_round (e : Expr) {x : ℤ} (hx : (Number.finite x).roundPlaces? = some n) :
    (Expr.call .round [e, .number x]).eval = e.eval.map (Number.roundTo n) := by
  cases he : e.eval with
  | error err =>
    simp only [Expr.eval, Expr.evalAll, he]
    rfl
  | ok v =>
    simp only [Expr.eval, Expr.evalAll, he]
    exact Function.apply_round hx

/-- An expression rounded to `n` decimals by a call around it evaluates, at any precision from `n`
on, as the expression does at precision `n`. -/
theorem evaluate_roundText (hnormal : ev.normalize s = .ok normal)
    (hcompile : compile normal = .ok (tokens, program))
    (hnested : Grammar.NestsWithin 127 (tokens.map Token.kind)) (hnp : n ≤ p) (hp : p ≤ 64)
    (hlength : (roundText s n).length ≤ ev.maxLength) :
    ev.evaluate (roundText s n) p = ev.evaluate s n := by
  obtain ⟨us, e, hkinds, rfl, hcall⟩ := compile_roundText hnormal hcompile hnested n
  have htokens := (compile_eq_ok_iff.mp hcompile).1
  have hus := (compile_eq_ok_iff.mp hcall).1
  rw [evaluate_of_compile (normalize_call hnormal htokens hus hkinds hlength) hcall,
    evaluate_of_compile hnormal hcompile, Expr.run_program, Expr.run_program,
    eval_round e (roundPlaces?_natural (hnp.trans hp))]
  cases e.eval with
  | error err => rfl
  | ok v => exact classify_roundTo v hnp hp

def halfTokens : List Token :=
  [⟨.openParen, 0, "("⟩, ⟨.minus, 1, "-"⟩, ⟨.number (5 * Decimal.one), 2, "5"⟩,
    ⟨.closeParen, 3, ")"⟩, ⟨.slash, 4, "/"⟩, ⟨.number (8 * Decimal.one), 5, "8"⟩]

theorem evaluate_roundText_half :
    evaluate {} "round( (-5)/8, 2)" 7 = evaluate {} " (-5)/8" 2 ∧
      evaluate {} " (-5)/8" 2 = .ok (.finite true 5674535530486825 (-53)) := by
  have hnormal : normalize {} " (-5)/8" = .ok "(-5)/8" := by decide +kernel
  have hcompile : compile "(-5)/8" = .ok (halfTokens, [.number (5 * Decimal.one), .negate,
      .number (8 * Decimal.one), .binary .divide]) := by
    decide +kernel
  have htext : roundText " (-5)/8" 2 = "round( (-5)/8, 2)" := by decide +kernel
  rw [← htext]
  exact ⟨evaluate_roundText hnormal hcompile (by decide) (by decide) (by decide)
    (by decide +kernel), by decide +kernel⟩

end Evaluator

end Reckoner
