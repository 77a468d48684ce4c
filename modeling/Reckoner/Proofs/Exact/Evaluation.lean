import Reckoner.Proofs.Exact.Literal
import Reckoner.Proofs.Exact.Power
import Reckoner.Proofs.Program.Execution

set_option autoImplicit false

namespace Reckoner

open Decimal

variable {v : Int}

theorem Operator.apply_exact {op : Operator} {a b : Int}
    (h : op.onRationals? (toRat a) (toRat b) = some (toRat v)) (hv : InRange v) :
    op.apply (.finite a) (.finite b) = .ok (.finite v) := by
  cases op with
  | plus => exact congrArg _ (Number.add_exact (Option.some.inj h) hv)
  | minus => exact congrArg _ (Number.sub_exact (Option.some.inj h) hv)
  | times => exact congrArg _ (Number.mul_exact (Option.some.inj h) hv)
  | divide =>
    simp only [onRationals?, toRat_eq_zero_iff] at h
    split at h
    · cases h
    · next hb => exact congrArg _ (Number.div_exact hb (Option.some.inj h) hv)
  | power =>
    change (Decimal.pow a b).mapError _ = _
    rw [Decimal.pow_exact h hv]
    rfl

theorem Unary.apply_exact {u : Unary} {a : Int}
    (h : Function.onRationals? (.unary u) [toRat a] = some (toRat v)) :
    u.apply (.finite a) = .ok (.finite v) := by
  cases u with
  | abs =>
    rw [← toRat_inj.mp ((toRat_natAbs a).trans (Option.some.inj h))]
    rfl
  | sign =>
    rw [← toRat_inj.mp ((toRat_signum a).trans (Option.some.inj h))]
    rfl
  | floor =>
    rw [← toRat_inj.mp ((toRat_floor a).trans (Option.some.inj h))]
    rfl
  | ceil =>
    rw [← toRat_inj.mp ((toRat_ceil a).trans (Option.some.inj h))]
    rfl
  | trunc =>
    rw [← toRat_inj.mp ((toRat_trunc a).trans (Option.some.inj h))]
    rfl
  | sin | cos | tan | asin | acos | atan | sinh | cosh | tanh
  | log10 | log2 | ln | sqrt | exp => cases h

theorem Function.apply_round {a n : Number} {k : Nat} (h : n.roundPlaces? = some k) :
    Function.round.apply [a, n] = .ok (a.roundTo k) := by
  simp only [Function.apply, h]

theorem Function.round_exact {args : List Int}
    (h : Function.round.onRationals? (args.map toRat) = some (toRat v)) :
    Function.round.apply (args.map .finite) = .ok (.finite v) := by
  match args, h with
  | [a], h =>
    have hround := toRat_roundTo a (Nat.zero_le places)
    rw [pow_zero, mul_one, div_one] at hround
    rw [← toRat_inj.mp (hround.trans (Option.some.inj h))]
    rfl
  | [a, n], h =>
    change (if (toRat n).den = 1 ∧ 0 ≤ toRat n ∧ toRat n ≤ roundLimit then
      some (nearestInt (toRat a * 10 ^ (toRat n).num.toNat) / 10 ^ (toRat n).num.toNat : ℚ)
      else none) = _ at h
    split at h
    · next hplaces =>
      obtain ⟨hplaces, hle⟩ := roundPlaces?_of_exact hplaces.1 hplaces.2.1 hplaces.2.2
      rw [← toRat_inj.mp ((toRat_roundTo a hle).trans (Option.some.inj h))]
      exact Function.apply_round hplaces
    · cases h

theorem Function.apply_exact {f : Function} {args : List Int}
    (h : f.onRationals? (args.map toRat) = some (toRat v)) (hv : InRange v) :
    f.apply (args.map .finite) = .ok (.finite v) := by
  cases f with
  | unary u =>
    match args, h with
    | [a], h =>
      change (u.apply (.finite a)).mapError _ = _
      rw [Unary.apply_exact h]
      rfl
    | [], h => cases u <;> cases h
    | a :: b :: rest, h => cases u <;> cases h
  | log => cases args <;> cases h
  | round => exact round_exact h
  | pow =>
    match args, h with
    | [a, b], h =>
      change (Decimal.pow a b).mapError _ = _
      rw [Decimal.pow_exact h hv]
      rfl
  | min =>
    match args, h with
    | a :: rest, h =>
      rw [← toRat_inj.mp ((toRat_foldl_min a rest).trans (Option.some.inj h))]
      exact congrArg _ (Number.extremum_lt a rest)
  | max =>
    match args, h with
    | a :: rest, h =>
      rw [← toRat_inj.mp ((toRat_foldl_max a rest).trans (Option.some.inj h))]
      exact congrArg _ (Number.extremum_gt a rest)

namespace Expr

theorem mem_nodes (e : Expr) : e ∈ e.nodes := by
  cases e <;> simp [nodes]

mutual

theorem eval_exact : ∀ (e : Expr), (∀ n ∈ e.nodes, n.OnGrid) →
    ∃ x, e.eval = .ok (.finite x) ∧ e.rational? = some (toRat x)
  | .number x, _ => ⟨x, rfl, rfl⟩
  | .constant c, h => by
    obtain ⟨_, hnone, _⟩ := h _ (mem_nodes _)
    cases hnone
  | .negate e, h => by
    obtain ⟨x, hx, hr⟩ := eval_exact e fun n hn => h n (by simp [nodes, hn])
    refine ⟨-x, ?_, ?_⟩
    · rw [eval, hx]
      rfl
    · rw [rational?, hr, toRat_neg]
      rfl
  | .binary op l r, h => by
    obtain ⟨a, ha, hl⟩ := eval_exact l fun n hn => h n (by simp [nodes, hn])
    obtain ⟨b, hb, hr⟩ := eval_exact r fun n hn => h n (by simp [nodes, hn])
    obtain ⟨v, hvalue, hv⟩ := h _ (mem_nodes _)
    refine ⟨v, ?_, hvalue⟩
    rw [rational?, hl, hr] at hvalue
    rw [eval, ha, hb]
    exact Operator.apply_exact hvalue hv
  | .call f args, h => by
    obtain ⟨xs, hxs, hargs⟩ := evalAll_exact args fun n hn => h n (by simp [nodes, hn])
    obtain ⟨v, hvalue, hv⟩ := h _ (mem_nodes _)
    refine ⟨v, ?_, hvalue⟩
    rw [rational?, hargs] at hvalue
    rw [eval, hxs]
    exact Function.apply_exact hvalue hv

theorem evalAll_exact : ∀ (es : List Expr), (∀ n ∈ nodesAll es, n.OnGrid) →
    ∃ xs : List Int, evalAll es = .ok (xs.map .finite) ∧ rationalAll? es = some (xs.map toRat)
  | [], _ => ⟨[], rfl, rfl⟩
  | e :: es, h => by
    obtain ⟨x, hx, hr⟩ := eval_exact e fun n hn => h n (by simp [nodesAll, hn])
    obtain ⟨xs, hxs, hrs⟩ := evalAll_exact es fun n hn => h n (by simp [nodesAll, hn])
    refine ⟨x :: xs, ?_, ?_⟩
    · rw [evalAll, hx, hxs]
      rfl
    · rw [rationalAll?, hr, hrs]
      rfl

end

theorem onGrid_iff {e : Expr} : e.OnGrid ↔
    ∃ r ∈ e.rational?, r.den ∣ 10 ^ places ∧ (r * one).num.natAbs < 2 ^ bitLimit := by
  have hnum (x : Int) : (toRat x * one).num = x := by
    rw [toRat_mul_one, Rat.num_intCast]
  constructor
  · rintro ⟨x, hx, hrange⟩
    refine ⟨toRat x, hx, exists_toRat_iff.mp ⟨x, rfl⟩, ?_⟩
    rw [hnum]
    exact hrange
  · rintro ⟨r, hr, hden, hrange⟩
    obtain ⟨x, rfl⟩ := exists_toRat_iff.mpr hden
    rw [hnum] at hrange
    exact ⟨x, hr, hrange⟩

instance : DecidablePred OnGrid := fun _ => decidable_of_iff _ onGrid_iff.symm

/-- What an expression of literals is worth exactly is what its program leaves, where no divisor is
0, the arguments are such as the functions take, and every value is on the grid and within the
range. -/
theorem run_exact (text : String) (tokens : List Token) (e : Expr) (r : ℚ)
    (htokens : Token.ofText text = .ok tokens)
    (hshort : ∀ t ∈ tokens, ∀ l, t.literal? = some l → l.fractionDigits.length ≤ 64)
    (htree : ofTokens tokens text.length = .ok e) (hvalue : e.rational? = some r)
    (hnodes : ∀ n ∈ e.nodes, n.OnGrid) :
    Program.ofTokens tokens text.length = .ok e.program ∧
      e.program.numbers.map toRat =
        tokens.filterMap (fun t => t.literal?.map Token.Literal.rational) ∧
      ∃ units : ℤ, e.program.run = .ok (.finite units) ∧ (units : ℚ) = r * 10 ^ 64 := by
  refine ⟨Program.ofTokens_of_writes (writes_of_ofTokens htree),
    numbers_of_ofText htokens hshort htree, ?_⟩
  obtain ⟨x, hx, hr⟩ := eval_exact e hnodes
  have hone : (one : ℚ) = 10 ^ 64 := cast_tenPow (by decide)
  refine ⟨x, e.run_program.trans hx, ?_⟩
  rw [hvalue] at hr
  rw [Option.some.inj hr, ← hone, toRat_mul_one]

def squareTokens : List Token :=
  [⟨.openParen, 0, "("⟩, ⟨.number (Decimal.one / 10), 1, "0.1"⟩, ⟨.plus, 4, "+"⟩,
    ⟨.number (Decimal.one / 5), 5, "0.2"⟩, ⟨.closeParen, 8, ")"⟩, ⟨.caret, 9, "^"⟩,
    ⟨.number (2 * Decimal.one), 10, "2"⟩]

def squareTree : Expr :=
  .binary .power (.binary .plus (.number (Decimal.one / 10)) (.number (Decimal.one / 5)))
    (.number (2 * Decimal.one))

theorem run_square : ∃ units : ℤ, squareTree.program.run = .ok (.finite units) ∧
    (units : ℚ) = 9 / 100 * 10 ^ 64 := by
  have htokens : Token.ofText "(0.1+0.2)^2" = .ok squareTokens := by decide +kernel
  have hshort : ∀ t ∈ squareTokens, ∀ l, t.literal? = some l → l.fractionDigits.length ≤ 64 := by
    decide +kernel
  have htree : ofTokens squareTokens "(0.1+0.2)^2".length = .ok squareTree := by rfl
  have hvalue : squareTree.rational? = some (9 / 100) := by decide +kernel
  have hnodes : ∀ n ∈ squareTree.nodes, n.OnGrid := by decide +kernel
  exact (run_exact _ _ _ _ htokens hshort htree hvalue hnodes).2.2

end Expr

end Reckoner
