import Reckoner.Proofs.Allowlist
import Reckoner.Proofs.Token.Spelling

set_option autoImplicit false

namespace Reckoner

open Decimal

namespace Token

/-- As many characters as any literal within the range may have. -/
def literalLimit : Nat := 10000

theorem ten_pow_le_range : 10 ^ (literalLimit + places) ≤ 2 ^ bitLimit := by decide +kernel

theorem natAbs_value_lt (cs : List Char) :
    (takeLiteral cs).1.value.natAbs < 10 ^ (cs.length + places) := by
  have hdigit (xs : List Char) : ∀ d ∈ xs.takeWhile Char.isDigit, d.isDigit = true :=
    fun d hd => List.mem_takeWhile_imp hd
  have hfraction : ∀ d ∈ ((takeLiteral cs).1.fraction.getD []), d.isDigit = true := by
    unfold takeLiteral
    split
    · exact hdigit _
    · exact nofun
  have hwhole : (takeLiteral cs).1.whole = cs.takeWhile Char.isDigit := by
    unfold takeLiteral
    split <;> rfl
  rw [Literal.value, ofDigits, hwhole]
  generalize (takeLiteral cs).1.fraction.getD [] = ds at hfraction
  have hkept : (ds.take places).length ≤ places := List.length_take_le _ _
  have hlen : (cs.takeWhile Char.isDigit).length ≤ cs.length :=
    (List.takeWhile_sublist _).length_le
  have hdigits : ∀ d ∈ cs.takeWhile Char.isDigit ++ ds.take places, d.isDigit = true := by
    intro d hd
    rcases List.mem_append.mp hd with hd | hd
    · exact hdigit cs d hd
    · exact hfraction d (List.mem_of_mem_take hd)
  have hvalue := digitsValue_lt hdigits
  rw [List.length_append] at hvalue
  rw [Int.natAbs_mul, tenPow_of_lt (lt_exponentEnd (Nat.sub_le places _))]
  calc _ < 10 ^ ((cs.takeWhile Char.isDigit).length + (ds.take places).length) *
        10 ^ (places - (ds.take places).length) :=
        Nat.mul_lt_mul_of_pos_right hvalue (by positivity)
    _ = 10 ^ ((cs.takeWhile Char.isDigit).length + places) := by
        rw [← pow_add]
        congr 1
        omega
    _ ≤ 10 ^ (cs.length + places) := Nat.pow_le_pow_right (by norm_num) (by omega)

theorem length_text_le {position : Nat} {cs : List Char} {ts : List Token}
    (h : scan position cs = .ok ts) : ∀ t ∈ ts, t.text.length ≤ cs.length := by
  intro t ht
  have hpart : t.chars.Sublist (written ts) := by
    rw [written, List.flatMap_def]
    exact List.sublist_flatten_of_mem (List.mem_map_of_mem ht)
  calc t.text.length = t.chars.length := String.length_toList.symm
    _ ≤ (written ts).length := hpart.length_le
    _ = (cs.filter fun c => !Text.isBlank c).length := by rw [(written_of_scan h).1]
    _ ≤ cs.length := List.length_filter_le _ _

end Token

namespace Evaluator

variable {ev : Evaluator} {expression normal : String} {tokens : List Token} {program : Program}
  {x : Int}

theorem natAbs_number_lt (hcompile : compile normal = .ok (tokens, program))
    (hx : .number x ∈ program) : x.natAbs < 10 ^ (normal.length + places) := by
  obtain ⟨htokens, tree, hwrites, rfl⟩ := compile_eq_ok_iff.mp hcompile
  have hderives := Expr.numbers_of_derives hwrites
  have hmem : x ∈ tree.program.numbers := List.mem_filterMap.mpr ⟨_, hx, rfl⟩
  rw [Expr.program_eq_reversePolish, ← Expr.reversePolishAll_singleton, hderives] at hmem
  obtain ⟨kind, hkind, hnumber⟩ := List.mem_filterMap.mp hmem
  obtain ⟨t, ht, rfl⟩ := List.mem_map.mp hkind
  rw [Token.number?_of_scan htokens t ht] at hnumber
  obtain ⟨l, hl, rfl⟩ := Option.map_eq_some_iff.mp hnumber
  unfold Token.literal? at hl
  split at hl
  · obtain rfl := Option.some.inj hl
    refine (Token.natAbs_value_lt _).trans_le (Nat.pow_le_pow_right (by norm_num) ?_)
    have hlen := Token.length_text_le htokens t ht
    rw [String.length_toList] at hlen ⊢
    omega
  · cases hl

theorem bitLength_number_le (hlimit : ev.maxLength ≤ Token.literalLimit)
    (h : ev.normalize expression = .ok normal) (hcompile : compile normal = .ok (tokens, program))
    (hx : .number x ∈ program) : bitLength x ≤ bitLimit := by
  have hle := Nat.add_le_add_right ((length_of_normalize h).trans hlimit) places
  have hten : 10 ^ (normal.length + places) ≤ 10 ^ (Token.literalLimit + places) :=
    Nat.pow_le_pow_right (by norm_num) hle
  exact bitLength_le_iff.mpr
    ((natAbs_number_lt hcompile hx).trans_le (hten.trans Token.ten_pow_le_range))

end Evaluator

end Reckoner
