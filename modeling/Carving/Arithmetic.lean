import Carving.Bytes.Number
import Carving.Error

/-!
# Sums and products

A calculation adds and multiplies the numbers that it reads. Here numbers may grow without bound,
unless a calculation is told to form sums and products of 64 bits only, and to fail where a number
needs more.
-/

namespace Carving

/-- How sums and products are formed. A sum that is formed is right. -/
class Arithmetic where
  add : Nat → Nat → Except Error Nat
  mul : Nat → Nat → Except Error Nat
  eq_of_add {a b sum : Nat} : add a b = .ok sum → sum = a + b

namespace Arithmetic

/-- Sums and products of any size. -/
instance exact : Arithmetic where
  add a b := .ok (a + b)
  mul a b := .ok (a * b)
  eq_of_add h := (Except.ok.inj h).symm

@[simp] theorem add_exact (a b : Nat) : add a b = .ok (a + b) := rfl

@[simp] theorem mul_exact (a b : Nat) : mul a b = .ok (a * b) := rfl

/-- Sums and products of 64 bits at most. -/
@[reducible] def word : Arithmetic where
  add a b :=
    if a + b < capacity 8 then .ok (a + b) else .error (.internal "attempt to add with overflow")
  mul a b :=
    if a * b < capacity 8 then .ok (a * b)
    else .error (.internal "attempt to multiply with overflow")
  eq_of_add h := by
    split at h <;> cases h
    rfl

end Arithmetic

end Carving
