import Reckoner.Application

set_option autoImplicit false

namespace Reckoner

theorem Function.name_of_named? {w : String} {f : Function} (h : Function.named? w = some f) :
    f.name = w := by
  simpa using List.find?_some h

theorem Constant.name_of_named? {w : String} {c : Constant} (h : Constant.named? w = some c) :
    c.name = w := by
  simpa using List.find?_some h

theorem Function.mem_all (f : Function) : f ∈ Function.all := by
  cases f with
  | unary u => cases u <;> decide
  | log | round | pow | min | max => decide

theorem Constant.mem_all (c : Constant) : c ∈ Constant.all := by
  cases c <;> decide

theorem Function.named?_name (f : Function) : Function.named? f.name = some f := by
  cases f with
  | unary u => cases u <;> decide
  | log | round | pow | min | max => decide

theorem Constant.named?_name (c : Constant) : Constant.named? c.name = some c := by
  cases c <;> decide

theorem Function.named?_constant (c : Constant) : Function.named? c.name = none := by
  cases c <;> decide

theorem Function.named?_of_constant {w : String} {c : Constant}
    (h : Constant.named? w = some c) : Function.named? w = none := by
  rw [← Constant.name_of_named? h]
  exact Function.named?_constant c

namespace Catalogue

theorem apply_name (f : Function) (args : List Number) : apply f.name args = f.apply args := by
  rw [apply, Function.named?_name]

theorem apply_finite (u : Unary) (x : Int) :
    apply u.name [.finite x] = (u.onFinite x).mapError Fault.toError :=
  apply_name (.unary u) [.finite x]

theorem apply_infinity (u : Unary) (negative : Bool) :
    apply u.name [Number.infinity negative] = (u.onInfinity negative).mapError Fault.toError := by
  have h := apply_name (.unary u) [Number.infinity negative]
  cases negative with
  | false => exact h
  | true => exact h

end Catalogue

end Reckoner
