import Reckoner.Proofs.Blank

set_option autoImplicit false

namespace Reckoner

theorem Token.kind_of_wordIn? {cs : List Char} {t : Token} {p : Nat × String}
    (h : wordIn? cs t = some p) : t.kind = .word p.2 := by
  unfold wordIn? at h
  split at h
  · next hkind =>
    obtain rfl := Option.some.inj h
    exact hkind
  · cases h

namespace Evaluator

variable {ev : Evaluator} {expression normal text : String} {tokens us : List Token}
  {program : Program}

theorem ne_empty_of_compile (hcompile : compile normal = .ok (tokens, program)) : normal ≠ "" := by
  rintro rfl
  rw [compile_blank rfl] at hcompile
  cases hcompile

/-- Tokens of the same kinds are compiled to the same program. -/
theorem compile_of_kinds (hcompile : compile normal = .ok (tokens, program))
    (hus : Token.ofText text = .ok us) (hkinds : us.map Token.kind = tokens.map Token.kind) :
    compile text = .ok (us, program) := by
  obtain ⟨-, e, he, rfl⟩ := compile_eq_ok_iff.mp hcompile
  refine compile_eq_ok_iff.mpr ⟨hus, e, ?_, rfl⟩
  rwa [Grammar.Writes, hkinds]

theorem contains_of_kinds (hus : Token.ofText text = .ok us)
    (hkinds : us.map Token.kind = tokens.map Token.kind)
    (hallowed : ∀ t ∈ tokens, ∀ name, t.kind = .word name → Catalogue.contains name = true) :
    ∀ w ∈ (Text.pieces text.toList).filterMap Text.Piece.word?, Catalogue.contains w = true := by
  intro w hw
  rw [← Text.map_snd_locatedWords 0] at hw
  change w ∈ (Text.words text).map Prod.snd at hw
  rw [← Token.words_of_ofText hus] at hw
  obtain ⟨p, hp, rfl⟩ := List.mem_map.mp hw
  obtain ⟨u, hu, hin⟩ := List.mem_filterMap.mp hp
  have hmem : u.kind ∈ tokens.map Token.kind := hkinds ▸ List.mem_map_of_mem hu
  obtain ⟨t, ht, hkind⟩ := List.mem_map.mp hmem
  exact hallowed t ht p.2 (hkind.trans (Token.kind_of_wordIn? hin))

section SameKinds

variable (hnormal : ev.normalize expression = .ok normal)
  (hcompile : compile normal = .ok (tokens, program)) (hus : Token.ofText text = .ok us)
  (hkinds : us.map Token.kind = tokens.map Token.kind) (htrim : Text.trim text = text)
  (hlength : text.length ≤ ev.maxLength)

include hnormal hcompile hus hkinds htrim hlength

theorem normalize_of_kinds : ev.normalize text = .ok text := by
  have hallowed :=
    (vetted_of_normalize hnormal (compile_eq_ok_iff.mp hcompile).1).allowed
  obtain ⟨hself, hcheck⟩ := Text.normalize_eq_self (contains_of_kinds hus hkinds hallowed)
  rw [normalize_eq, htrim, if_neg (ne_empty_of_compile (compile_of_kinds hcompile hus hkinds)),
    if_neg (Nat.not_lt.mpr hlength), hself, hcheck]
  rfl

theorem evaluate_of_kinds (precision : Nat) :
    ev.evaluate text precision = ev.evaluate expression precision := by
  rw [evaluate_of_compile (normalize_of_kinds hnormal hcompile hus hkinds htrim hlength)
    (compile_of_kinds hcompile hus hkinds), evaluate_of_compile hnormal hcompile]

end SameKinds

end Evaluator

end Reckoner
