import Reckoner.Json.Value

set_option autoImplicit false

namespace Reckoner.Json

def goesOn (c : Char) : Bool := c.isDigit || c = '.' || c = 'e' || c = 'E'

def Stops (rest : List Char) : Prop := ∀ c ∈ rest.head?, goesOn c = false

def IsDigits (ds : List Char) : Prop := ds ≠ [] ∧ ∀ d ∈ ds, d.isDigit = true

variable {ds rest : List Char}

theorem Stops.isDigit (h : Stops rest) : ∀ c ∈ rest.head?, c.isDigit = false := by
  intro c hc
  have hstop := h c hc
  simp only [goesOn, Bool.or_eq_false_iff] at hstop
  exact hstop.1.1.1

namespace Reader

theorem digits?_append (hds : IsDigits ds) (hrest : ∀ c ∈ rest.head?, c.isDigit = false) :
    digits? (ds ++ rest) = some (ds, rest) := by
  have hnone : rest.takeWhile Char.isDigit = [] ∧ rest.dropWhile Char.isDigit = rest := by
    cases rest with
    | nil => exact ⟨rfl, rfl⟩
    | cons c cs => simp [hrest c rfl]
  rw [digits?, List.takeWhile_append_of_pos hds.2, List.dropWhile_append_of_pos hds.2, hnone.1,
    hnone.2, List.append_nil]
  cases ds with
  | nil => exact absurd rfl hds.1
  | cons d ds => rfl

theorem whole?_append (hds : IsDigits ds) (hzero : ds.head? = some '0' → ds = ['0'])
    (hrest : ∀ c ∈ rest.head?, c.isDigit = false) : whole? (ds ++ rest) = some (ds, rest) := by
  rw [whole?, digits?_append hds hrest]
  split
  · next h =>
    obtain ⟨rfl, -⟩ := Prod.mk.inj (Option.some.inj h)
    cases hzero rfl
  · rfl

end Reader

def fractionChars : Option (List Char) → List Char
  | none => []
  | some ds => '.' :: ds

def Exponent.chars : Option Exponent → List Char
  | none => []
  | some e => 'e' :: (if e.negative then '-' else '+') :: e.digits

namespace Numeral

def chars (n : Numeral) : List Char :=
  (if n.negative then ['-'] else []) ++
    (n.whole ++ (fractionChars n.fraction ++ Exponent.chars n.exponent))

/-- The whole part begins with a zero only if it is one; no part is without digits. -/
structure WellFormed (n : Numeral) : Prop where
  whole : IsDigits n.whole
  lone : n.whole.head? = some '0' → n.whole = ['0']
  fraction : ∀ ds ∈ n.fraction, IsDigits ds
  exponent : ∀ e ∈ n.exponent, IsDigits e.digits

end Numeral

namespace Reader

variable {fraction : Option (List Char)} {exponent : Option Exponent} {n : Numeral}

theorem exponent?_append (h : ∀ e ∈ exponent, IsDigits e.digits) (hrest : Stops rest) :
    exponent? (Exponent.chars exponent ++ rest) = some (exponent, rest) := by
  cases exponent with
  | none =>
    rw [Exponent.chars, List.nil_append]
    unfold exponent?
    split
    · next c cs => exact absurd (hrest 'e' rfl) (by decide)
    · next c cs => exact absurd (hrest 'E' rfl) (by decide)
    · rfl
  | some e =>
    obtain ⟨negative, digits⟩ := e
    have hdigits := digits?_append (h _ rfl) hrest.isDigit
    cases negative <;>
      simp only [Exponent.chars, List.cons_append, Bool.false_eq_true, if_true, if_false, exponent?,
        signedExponent?, hdigits, Option.map_some]

theorem fraction?_append (h : ∀ ds ∈ fraction, IsDigits ds)
    (hrest : ∀ c ∈ rest.head?, c.isDigit = false ∧ c ≠ '.') :
    fraction? (fractionChars fraction ++ rest) = some (fraction, rest) := by
  cases fraction with
  | none =>
    rw [fractionChars, List.nil_append]
    unfold fraction?
    split
    · next cs => exact absurd rfl (hrest '.' rfl).2
    · rfl
  | some ds =>
    rw [fractionChars, List.cons_append, fraction?,
      digits?_append (h ds rfl) fun c hc => (hrest c hc).1]
    rfl

theorem head_exponentChars (exponent : Option Exponent) (hrest : Stops rest) :
    ∀ c ∈ (Exponent.chars exponent ++ rest).head?, c.isDigit = false ∧ c ≠ '.' := by
  cases exponent with
  | none =>
    intro c hc
    refine ⟨hrest.isDigit c hc, ?_⟩
    rintro rfl
    exact absurd (hrest '.' hc) (by decide)
  | some e =>
    rintro c ⟨⟩
    decide

theorem head_fractionChars (fraction : Option (List Char)) (exponent : Option Exponent)
    (hrest : Stops rest) :
    ∀ c ∈ (fractionChars fraction ++ (Exponent.chars exponent ++ rest)).head?,
      c.isDigit = false := by
  cases fraction with
  | none => exact fun c hc => (head_exponentChars exponent hrest c hc).1
  | some ds =>
    rintro c ⟨⟩
    decide

theorem unsigned?_append (negative : Bool) (h : n.WellFormed) (hrest : Stops rest) :
    unsigned? negative
        (n.whole ++ (fractionChars n.fraction ++ (Exponent.chars n.exponent ++ rest))) =
      some ({ n with negative }, rest) := by
  have hwhole := whole?_append h.whole h.lone (head_fractionChars n.fraction n.exponent hrest)
  have hfraction := fraction?_append h.fraction (head_exponentChars n.exponent hrest)
  have hexponent := exponent?_append h.exponent hrest
  simp only [unsigned?, hwhole, hfraction, hexponent, Option.bind_eq_bind, Option.bind_some]
  rfl

/-- A written numeral is read back in front of anything that it does not go on with. -/
theorem numeral?_append (h : n.WellFormed) (hrest : Stops rest) :
    numeral? (n.chars ++ rest) = some (n, rest) := by
  obtain ⟨negative, whole, fraction, exponent⟩ := n
  have hread := unsigned?_append negative h hrest
  cases negative with
  | true => simpa [Numeral.chars, numeral?] using hread
  | false =>
    obtain ⟨d, ds, rfl⟩ := List.exists_cons_of_ne_nil h.whole.1
    have hd : d ≠ '-' := by
      rintro rfl
      exact absurd (h.whole.2 '-' List.mem_cons_self) (by decide)
    simpa [Numeral.chars, numeral?, hd] using hread

theorem head_chars (h : n.WellFormed) :
    ∃ c cs, n.chars = c :: cs ∧ (c.isDigit = true ∨ c = '-') := by
  obtain ⟨d, ds, hwhole⟩ := List.exists_cons_of_ne_nil h.whole.1
  cases hnegative : n.negative with
  | true => exact ⟨'-', _, by rw [Numeral.chars, hnegative]; rfl, .inr rfl⟩
  | false =>
    have hd := h.whole.2 d (hwhole ▸ List.mem_cons_self)
    exact ⟨d, _, by rw [Numeral.chars, hnegative, hwhole]; rfl, .inl hd⟩

end Reader

end Reckoner.Json
