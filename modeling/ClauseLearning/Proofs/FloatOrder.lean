import Mathlib
import ClauseLearning.AtomTable.Activity
import ClauseLearning.Proofs.Heap.Order

/-!
# The order of floating-point numbers

A comparison of floating-point numbers is one of the unpacked numbers, which are ordered by sign, exponent and mantissa
(`floatRanking`), apart from the one that is not a number: it is neither below nor above anything, and a sum with it is
not a number either (`Float.isNaN_add`).
-/

namespace ClauseLearning

open Float.Model

theorem Float.compare_swap (a b : UnpackedFloat) : b.compare a = (a.compare b).map Ordering.swap := by
  have hnat : ∀ m n : Nat, compare m n = (compare n m).swap := fun m n => Std.OrientedCmp.eq_swap
  have hint : ∀ m n : Int, compare m n = (compare n m).swap := fun m n => Std.OrientedCmp.eq_swap
  -- only finite numbers of the same sign are compared by exponent and mantissa
  rcases a with (_ | _) | _ | (_ | _) | ⟨_ | _, m, e, hm⟩ <;>
    rcases b with (_ | _) | _ | (_ | _) | ⟨_ | _, n, f, hn⟩ <;> try rfl
  · simp [UnpackedFloat.compare, Ordering.swap_then, ← hnat, ← hint]
  · simp [UnpackedFloat.compare, Ordering.swap_then, ← hnat, ← hint]

theorem Float.compare_eq_none_iff (a b : UnpackedFloat) :
    a.compare b = none ↔ a.isNaN = true ∨ b.isNaN = true := by
  rcases a with (_ | _) | _ | (_ | _) | ⟨_ | _, m, e, hm⟩ <;>
    rcases b with (_ | _) | _ | (_ | _) | ⟨_ | _, n, f, hn⟩ <;>
    simp [UnpackedFloat.compare, UnpackedFloat.isNaN]

/-- Numbers are ordered, and what is not a number is not below anything. -/
theorem Float.not_lt_iff {x y : Float} : ¬x < y ↔ y ≤ x ∨ x.isNaN = true ∨ y.isNaN = true := by
  have hlt : x < y ↔ x.toModel.unpack.lt y.toModel.unpack = true := decide_eq_true_iff
  have hle : y ≤ x ↔ y.toModel.unpack.le x.toModel.unpack = true := decide_eq_true_iff
  have hnone : x.toModel.unpack.compare y.toModel.unpack = none ↔ x.isNaN = true ∨ y.isNaN = true :=
    compare_eq_none_iff _ _
  rw [hlt, hle, ← hnone, UnpackedFloat.lt, UnpackedFloat.le, compare_swap x.toModel.unpack]
  cases x.toModel.unpack.compare y.toModel.unpack with
  | none => simp
  | some o => cases o <;> simp

theorem Float.not_le_of_isNaN {x y : Float} (h : x.isNaN = true ∨ y.isNaN = true) : ¬x ≤ y := by
  have hle : x ≤ y ↔ x.toModel.unpack.le y.toModel.unpack = true := decide_eq_true_iff
  rw [hle, UnpackedFloat.le, (compare_eq_none_iff _ _).mpr h]
  simp

theorem Float.beq_of_isNaN {x y : Float} (h : x.isNaN = true ∨ y.isNaN = true) : (x == y) = false := by
  have hbeq : (x == y) = x.toModel.unpack.beq y.toModel.unpack := rfl
  rw [hbeq, UnpackedFloat.beq, (compare_eq_none_iff _ _).mpr h]
  rfl

/-! ## Ranks -/

/-- The place of an unpacked number in the order: infinities outside, zero in the middle, and numbers of either sign by
exponent and mantissa. -/
def unpackedRank : UnpackedFloat → Int ×ₗ Int ×ₗ Int
  | .infinity .negative => toLex (-2, toLex (0, 0))
  | .finite .negative m e _ => toLex (-1, toLex (-e, -m))
  | .zero _ | .notANumber => toLex (0, toLex (0, 0))
  | .finite .positive m e _ => toLex (1, toLex (e, m))
  | .infinity .positive => toLex (2, toLex (0, 0))

theorem compare_eq_lt_iff {a b : UnpackedFloat} (ha : a.isNaN = false) (hb : b.isNaN = false) :
    a.compare b = some .lt ↔ unpackedRank a < unpackedRank b := by
  rcases a with (_ | _) | _ | (_ | _) | ⟨_ | _, m, e, hm⟩ <;>
    rcases b with (_ | _) | _ | (_ | _) | ⟨_ | _, n, f, hn⟩ <;>
    simp_all [UnpackedFloat.compare, unpackedRank, UnpackedFloat.isNaN, Prod.Lex.toLex_lt_toLex]
  · rfl
  · rw [Ordering.then_eq_gt, compare_gt_iff_gt, compare_gt_iff_gt, compare_eq_iff_eq]
  · rw [Ordering.then_eq_lt, compare_lt_iff_lt, compare_lt_iff_lt, compare_eq_iff_eq]

/-- The order of floating-point numbers, which is linear apart from what is not a number. -/
def floatRanking : IndexHeap.Ranking Float (Int ×ₗ Int ×ₗ Int) where
  domain x := x.isNaN = false
  rank x := unpackedRank x.toModel.unpack
  lt_iff {x y} hx hy := by
    have hlt : x < y ↔ x.toModel.unpack.lt y.toModel.unpack = true := decide_eq_true_iff
    rw [hlt, UnpackedFloat.lt, ← compare_eq_lt_iff hx hy]
    cases x.toModel.unpack.compare y.toModel.unpack with
    | none => simp
    | some o => cases o <;> simp

/-- Numbers of which one has no greater rank are in order. -/
theorem Float.le_of_rank_le {x y : Float} (hx : x.isNaN = false) (hy : y.isNaN = false)
    (h : floatRanking.rank x ≤ floatRanking.rank y) : x ≤ y := by
  have hnot : ¬y < x := fun hlt => absurd ((floatRanking.lt_iff hy hx).mp hlt) (not_lt.mpr h)
  rcases Float.not_lt_iff.mp hnot with hle | hnan | hnan
  · exact hle
  · rw [hy] at hnan
    cases hnan
  · rw [hx] at hnan
    cases hnan

theorem Float.isNaN_add {x : Float} (hx : x.isNaN = true) (y : Float) : (x + y).isNaN = true := by
  have hunpack : x.toModel.unpack = .notANumber := by
    have hx : x.toModel.unpack.isNaN = true := hx
    revert hx
    cases x.toModel.unpack <;> simp [UnpackedFloat.isNaN]
  have hsum : ∀ b : UnpackedFloat, UnpackedFloat.add Format.binary64 .notANumber b = .notANumber := fun b => by
    cases b <;> rfl
  have hnan : (Float.Model.pack .notANumber).unpack.isNaN = true := by decide +kernel
  show (Float.Model.pack (UnpackedFloat.add Format.binary64 x.toModel.unpack y.toModel.unpack)).unpack.isNaN = true
  rw [hunpack, hsum, hnan]

end ClauseLearning
