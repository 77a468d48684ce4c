import Reckoner.Proofs.Digits
import Reckoner.Proofs.Text.Case

set_option autoImplicit false

namespace Reckoner

namespace Token

open Text

variable {c : Char} {cs rest : List Char} {kind : Kind} {ks ms : List Kind} {ts : List Token}

theorem toList_natural (n : Nat) : (toString n).toList = Nat.toDigits 10 n := String.toList_ofList

theorem isDigit_of_mem_natural {n : Nat} {d : Char} (h : d ∈ (toString n).toList) :
    d.isDigit = true := by
  rw [toList_natural] at h
  exact Nat.isDigit_of_mem_toDigits (by norm_num) (by norm_num) h

theorem spelled_natural (n : Nat) : Spelled (.number (n * Decimal.one)) (toString n).toList := by
  have hcut : takeLiteral (toString n).toList = _ :=
    takeLiteral_digits fun d => isDigit_of_mem_natural
  have hstarts : startsNumber (toString n).toList = true := by
    cases hds : (toString n).toList with
    | nil => exact absurd ((toList_natural n).symm.trans hds) Nat.toDigits_ne_nil
    | cons d ds => exact startsNumber_of_isDigit (isDigit_of_mem_natural (hds ▸ List.mem_cons_self))
  have hvalue : (takeLiteral (toString n).toList).1.value = n * Decimal.one := by
    rw [hcut, Literal.value, Option.getD_none, Decimal.ofDigits, List.take_nil, List.append_nil,
      toList_natural, Decimal.digitsValue_toDigits]
    rfl
  have h := Spelled.number hstarts (by rw [hcut])
  rwa [hvalue] at h

def Ends (rest : List Char) : Prop := ∀ c ∈ rest.head?, isWordPart c = false ∧ c ≠ '.'

/-- Wherever it begins, the text is cut into tokens of these kinds. -/
def Scans (cs : List Char) (ks : List Kind) : Prop :=
  ∀ position, ∃ ts, scan position cs = .ok ts ∧ ts.map Token.kind = ks

namespace Ends

theorem goesOn (h : Ends rest) (kind : Kind) : ∀ c ∈ rest.head?, kind.goesOn c = false := by
  intro c hc
  obtain ⟨hpart, hpoint⟩ := h c hc
  cases kind with
  | word => exact hpart
  | number =>
    have hdigit : c.isDigit = false := by
      by_contra hdigit
      rw [isWordPart_of_isDigit (Bool.of_not_eq_false hdigit)] at hpart
      cases hpart
    simp [Kind.goesOn, hdigit, hpoint]
  | _ => rfl

theorem append {more : List Char} (hcs : Ends cs) (hmore : Ends more) : Ends (cs ++ more) := by
  cases cs with
  | nil => exact hmore
  | cons c cs => exact hcs

theorem of_isBlank (h : ∀ c ∈ cs, isBlank c = true) : Ends cs := by
  intro c hc
  have hblank := h c (List.mem_of_mem_head? hc)
  refine ⟨isWordPart_of_isBlank hblank, ?_⟩
  rintro rfl
  cases hblank

end Ends

namespace Scans

theorem nil : Scans [] [] := fun position => ⟨[], by rw [scan], rfl⟩

theorem blank (hc : isBlank c = true) (h : Scans cs ks) : Scans (c :: cs) ks := by
  intro position
  obtain ⟨ts, hts, hkinds⟩ := h (position + 1)
  exact ⟨ts, by rw [scan_blank_cons hc, hts], hkinds⟩

theorem blanks {bs : List Char} (hbs : ∀ b ∈ bs, isBlank b = true) (h : Scans cs ks) :
    Scans (bs ++ cs) ks := by
  induction bs with
  | nil => exact h
  | cons b bs ih =>
    obtain ⟨hb, hbs⟩ := List.forall_mem_cons.mp hbs
    exact (ih hbs).blank hb

theorem spelled (hs : Spelled kind cs) (hrest : ∀ c ∈ rest.head?, kind.goesOn c = false)
    (h : Scans rest ks) : Scans (cs ++ rest) (kind :: ks) := by
  intro position
  obtain ⟨ts, hts, hkinds⟩ := h (position + cs.length)
  refine ⟨⟨kind, position, String.ofList cs⟩ :: ts, ?_, by rw [List.map_cons, hkinds]⟩
  rw [scan_append hs hrest, hts]
  rfl

theorem symbol (hc : symbol? c = some kind) (h : Scans cs ks) : Scans (c :: cs) (kind :: ks) :=
  spelled (.symbol hc) (fun d _ => goesOn_of_symbol? hc d) h

theorem number (hcs : startsNumber cs = true) (h : Scans (takeLiteral cs).2 ks) :
    Scans cs (.number (takeLiteral cs).1.value :: ks) := by
  intro position
  obtain ⟨ts, hts, hkinds⟩ := h (position + (takeLiteral cs).1.chars.length)
  refine ⟨⟨.number (takeLiteral cs).1.value, position,
    String.ofList (takeLiteral cs).1.chars⟩ :: ts, ?_, by rw [List.map_cons, hkinds]⟩
  rw [scan_literal hcs, hts]
  rfl

theorem append {position : Nat} (h : scan position cs = .ok ts) (hrest : Ends rest)
    (hms : Scans rest ms) : Scans (cs ++ rest) (ts.map Token.kind ++ ms) := by
  fun_induction scan position cs generalizing ts with
  | case1 =>
    cases h
    exact hms
  | case2 position c cs hblank ih => exact (ih h).blank hblank
  | case3 position c cs _ kind hkind ih =>
    obtain ⟨us, hus, rfl⟩ := map_eq_ok_iff.mp h
    exact (ih hus).symbol hkind
  | case4 position c cs _ _ hstart letters =>
    rename_i name ih
    obtain ⟨us, hus, rfl⟩ := map_eq_ok_iff.mp h
    have hcut : letters ++ (cs.dropWhile isWordPart ++ rest) = c :: cs ++ rest := by
      rw [← List.append_assoc, List.cons_append, List.takeWhile_append_dropWhile]
    have hstops : Stops (cs.dropWhile isWordPart ++ rest) := by
      rw [← dropWhile_append_of_head fun d hd => (hrest d hd).1]
      exact stops_dropWhile _
    rw [← hcut]
    exact (ih hus).spelled (.word (isWordText_takeWhile hstart)) hstops
  | case5 position c cs _ _ _ hnumber parts =>
    rename_i chars ih
    obtain ⟨us, hus, rfl⟩ := map_eq_ok_iff.mp h
    have hlong := takeLiteral_append_of_head (hrest.goesOn (.number 0)) (c :: cs)
    have hscans : Scans (takeLiteral (c :: (cs ++ rest))).2 (us.map Token.kind ++ ms) := by
      rw [← List.cons_append, hlong]
      exact ih hus
    have hstarts : startsNumber (c :: (cs ++ rest)) = true := startsNumber_append hnumber
    have hall := hscans.number hstarts
    rw [← List.cons_append, hlong] at hall
    exact hall
  | case6 => cases h

end Scans

end Token

end Reckoner
