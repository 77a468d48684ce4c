import Reckoner.History
import Reckoner.Proofs.Blank

set_option autoImplicit false

namespace Reckoner

/-- An expression that is not empty and has no blanks, with a finite result. -/
structure Item.WellFormed (i : Item) : Prop where
  nonempty : i.expression ≠ ""
  noBlanks : ∀ c ∈ i.expression.toList, Text.isBlank c = false
  finite : i.result.isFinite = true

theorem Item.WellFormed.isAllBlank {i : Item} (h : i.WellFormed) :
    Text.isAllBlank i.expression = false := by
  by_contra hblank
  have hall := Text.isAllBlank_iff.mp (Bool.not_eq_false _ ▸ hblank)
  refine h.nonempty (String.toList_eq_nil_iff.mp (List.eq_nil_iff_forall_not_mem.mpr ?_))
  intro c hc
  have := hall c hc
  rw [h.noBlanks c hc] at this
  cases this

namespace History

/-- Holds at most as many items as its limit says, all of them well-formed. -/
structure WellFormed (h : History) : Prop where
  size : h.size ≤ h.limit
  items : ∀ i ∈ h.items, i.WellFormed

variable {h : History} {i : Item} {id : Uuid}

def push (h : History) (i : Item) : History := { h with items := (i :: h.items).take h.limit }

theorem push_items (h : History) (i : Item) :
    (h.push i).items = i :: h.items.take (h.limit - 1) :=
  List.take_cons h.limit_pos

theorem add?_of_isAllBlank {expression : String}
    (hexpression : Text.isAllBlank expression = false) (h : History) (x : Binary64)
    (stamp : Stamp) : h.add? expression x stamp =
      some (⟨stamp.id, Text.withoutBlanks expression, x, stamp.moment⟩,
        h.push ⟨stamp.id, Text.withoutBlanks expression, x, stamp.moment⟩) := by
  have hkept : ¬(Text.withoutBlanks expression).isEmpty = true := by
    rw [String.isEmpty_iff, Text.withoutBlanks_eq_empty_iff, hexpression]
    exact Bool.false_ne_true
  rw [add?, if_neg hkept]
  rfl

theorem mem_of_find? (hi : h.find? id = some i) : i ∈ h.items := List.mem_of_find?_eq_some hi

theorem WellFormed.empty (limit : Nat) : (empty limit).WellFormed :=
  ⟨Nat.zero_le _, fun _ hi => nomatch hi⟩

theorem WellFormed.push (hh : h.WellFormed) (hi : i.WellFormed) : (h.push i).WellFormed := by
  refine ⟨List.length_take_le .., fun j hj => ?_⟩
  rcases List.mem_cons.mp (List.mem_of_mem_take hj) with rfl | hj
  · exact hi
  · exact hh.items j hj

theorem WellFormed.erase (hh : h.WellFormed) (id : Uuid) : (h.erase id).WellFormed :=
  ⟨(List.eraseP_sublist).length_le.trans hh.size, fun j hj => hh.items j (List.mem_of_mem_eraseP hj)⟩

theorem WellFormed.clear (h : History) : h.clear.WellFormed :=
  ⟨Nat.zero_le _, fun _ hi => nomatch hi⟩

theorem find?_of_mem (hi : i ∈ h.items)
    (hunique : ∀ j ∈ h.items, j.id = i.id → j = i) : h.find? i.id = some i := by
  cases hfind : h.find? i.id with
  | none => exact absurd (decide_eq_true rfl) (List.find?_eq_none.mp hfind i hi)
  | some j =>
    have hid : j.id = i.id := by simpa using List.find?_some hfind
    rw [hunique j (mem_of_find? hfind) hid]

end History

end Reckoner
