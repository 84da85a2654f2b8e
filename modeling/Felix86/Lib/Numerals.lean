import Mathlib.Algebra.GroupWithZero.Nat

/-!
# Numerals of finite types

A numeral of `Fin n` comes with a proof that `n` is not zero. Here are the proofs for the sizes of
the tables of registers, with names, so that a definition full of such numerals refers to them and
carries no proofs of its own.
-/

namespace Felix86

namespace Numerals

scoped instance neZero_four : NeZero 4 := ⟨Nat.succ_ne_zero 3⟩

scoped instance neZero_sixteen : NeZero 16 := ⟨Nat.succ_ne_zero 15⟩

scoped instance neZero_thirtyTwo : NeZero 32 := ⟨Nat.succ_ne_zero 31⟩

end Numerals

end Felix86
