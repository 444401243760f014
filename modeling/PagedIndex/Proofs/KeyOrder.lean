import Mathlib.Order.Lattice
import PagedIndex.FixedWidth.Basic

/-!
# The order of keys

Keys are compared by `compare`; here is the linear order that it stands for. The instance is scoped,
as it would otherwise be a second source of `compare`.
-/

namespace PagedIndex.KeyOrder

variable {K : Type} [IndexKey K]

scoped instance instLinearOrder : LinearOrder K where
  le a b := (compare a b).isLE
  lt a b := compare a b = .lt
  le_refl a := by
    rw [Std.ReflOrd.compare_self]; rfl
  le_trans _ _ _ := Std.TransCmp.isLE_trans
  le_antisymm a b below above := by
    apply Std.LawfulEqOrd.eq_of_compare
    rw [Std.OrientedOrd.eq_swap] at above
    cases h : compare a b <;> simp_all
  lt_iff_le_not_ge a b := by
    rw [Std.OrientedOrd.eq_swap (a := b)]
    cases compare a b <;> simp
  le_total a b := by
    rw [Std.OrientedOrd.eq_swap (a := b)]
    cases compare a b <;> simp
  toDecidableLE a b := inferInstanceAs (Decidable ((compare a b).isLE = true))
  toDecidableLT a b := inferInstanceAs (Decidable (compare a b = .lt))
  toDecidableEq a b := decidable_of_iff (compare a b = .eq) Std.LawfulEqCmp.compare_eq_iff_eq
  compare := compare
  compare_eq_compareOfLessAndEq a b := by
    unfold compareOfLessAndEq
    split
    · rename_i below; exact below
    · rename_i not_below
      split
      · rename_i same; exact Std.LawfulEqCmp.compare_eq_iff_eq.mpr same
      · rename_i apart
        have apart : compare a b ≠ .eq := mt Std.LawfulEqCmp.compare_eq_iff_eq.mp apart
        have not_below : compare a b ≠ .lt := not_below
        cases h : compare a b <;> simp_all

theorem compare_lt_iff {a b : K} : IndexKey.toOrd.compare a b = .lt ↔ a < b := Iff.rfl

theorem compare_eq_iff {a b : K} : IndexKey.toOrd.compare a b = .eq ↔ a = b :=
  Std.LawfulEqCmp.compare_eq_iff_eq

theorem compare_gt_iff {a b : K} : IndexKey.toOrd.compare a b = .gt ↔ b < a :=
  Std.OrientedCmp.gt_iff_lt

theorem compare_isLE_iff {a b : K} : (IndexKey.toOrd.compare a b).isLE = true ↔ a ≤ b := Iff.rfl

theorem compare_isGE_iff {a b : K} : (IndexKey.toOrd.compare a b).isGE = true ↔ b ≤ a := by
  rw [Std.OrientedCmp.isGE_iff_isLE, compare_isLE_iff]

end PagedIndex.KeyOrder
