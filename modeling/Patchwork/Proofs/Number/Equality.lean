import Patchwork.Graph.Equality
import Patchwork.Machine.Word
import Mathlib

/-!
# Equal numbers and equal words

Numeric equality of doubles is not identity: a NaN equals nothing, and the two zeros are
equal. Apart from that, equal doubles are one double. So equal numbers of one cell type
are stored as one word, with one exception: a zero and a negative zero.
-/

namespace Patchwork

open Binary64

open Float.Model (UnpackedFloat)
open Float.Model.UnpackedFloat (Sign)

/-! ## Doubles -/

namespace Binary64

/-- Doubles that compare as equal: the same infinity, two zeros, or the same finite
number. -/
inductive Alike : UnpackedFloat → UnpackedFloat → Prop
  | infinity (s : Sign) : Alike (.infinity s) (.infinity s)
  | zero (s t : Sign) : Alike (.zero s) (.zero t)
  | finite (s : Sign) (m : Nat) (e : Int) (h : 0 < m) :
      Alike (.finite s m e h) (.finite s m e h)

theorem Alike.symm {u v : UnpackedFloat} (h : Alike u v) : Alike v u := by
  cases h <;> constructor

theorem Alike.trans {u v w : UnpackedFloat} (h : Alike u v) (h' : Alike v w) : Alike u w := by
  cases h <;> cases h' <;> constructor

theorem compare_sign_eq_iff (s t : Sign) : compare s t = .eq ↔ s = t := by
  cases s <;> cases t <;> simp [compare]

/-- The comparison finds two doubles equal exactly if they are alike. -/
theorem compare_eq_iff (u v : UnpackedFloat) : u.compare v = some .eq ↔ Alike u v := by
  constructor
  · intro h
    fun_cases UnpackedFloat.compare u v
    case case3 s t =>
      obtain rfl : s = t := by simpa [UnpackedFloat.compare, compare_sign_eq_iff] using h
      exact .infinity s
    case case12 s t => exact .zero s t
    case case13 m e hm n f hn =>
      obtain ⟨rfl, rfl⟩ : e = f ∧ m = n := by
        simpa [UnpackedFloat.compare, Ordering.then_eq_eq] using h
      exact .finite _ _ _ _
    case case16 m e hm n f hn =>
      obtain ⟨rfl, rfl⟩ : e = f ∧ m = n := by
        simpa [UnpackedFloat.compare, Ordering.then_eq_eq] using h
      exact .finite _ _ _ _
    all_goals simp_all [UnpackedFloat.compare]
  · intro h
    cases h with
    | infinity s => simp [UnpackedFloat.compare, compare_sign_eq_iff]
    | zero s t => rfl
    | finite s m e h => cases s <;> simp [UnpackedFloat.compare]

theorem beq_iff (x y : Float) : (x == y) ↔ Alike x.toModel.unpack y.toModel.unpack := by
  rw [← compare_eq_iff]
  exact beq_iff_eq (α := Option Ordering)

theorem not_lt_of_alike {x y : Float} (h : Alike x.toModel.unpack y.toModel.unpack) : ¬ x < y := by
  intro hl
  have hl' : x.toModel.unpack.compare y.toModel.unpack = some .lt :=
    beq_iff_eq.1 (of_decide_eq_true hl)
  rw [(compare_eq_iff _ _).2 h] at hl'
  cases hl'

theorem toBits_of_unpack_zero {x : Float} {s : Sign} (h : x.toModel.unpack = .zero s) :
    x.toModel.toBits = 0 ∨ x.toModel.toBits = 0x8000000000000000 := by
  simp only [← UInt64.toNat_inj, ← UInt64.toNat_toBitVec]
  have hl := x.toModel.toBits.toBitVec.isLt
  simp only [Float.Model.unpack, UnpackedFloat.unpack] at h
  split at h
  · split at h <;> cases h
  · split at h
    · rename_i he
      split at h
      · rename_i hm
        simp only [UnpackedFloat.unpackExponent, UnpackedFloat.unpackMantissa, ← BitVec.toNat_inj,
          BitVec.toNat_cast, BitVec.extractLsb_toNat, Nat.shiftRight_eq_div_pow] at he hm
        have he' : x.toModel.toBits.toBitVec.toNat / 2 ^ 52 % 2 ^ 11 = 0 := he
        have hm' : x.toModel.toBits.toBitVec.toNat / 2 ^ 0 % 2 ^ 52 = 0 := hm
        change _ = 0 ∨ _ = 0x8000000000000000
        omega
      · cases h
    · cases h

theorem eq_of_toBits {x y : Float} (h : x.toModel.toBits = y.toModel.toBits) : x = y := by
  obtain ⟨⟨b, hb⟩⟩ := x
  obtain ⟨⟨c, hc⟩⟩ := y
  congr

theorem eq_zero_of_unpack {x : Float} {s : Sign} (h : x.toModel.unpack = .zero s) :
    x = 0.0 ∨ x = -0.0 := by
  rcases toBits_of_unpack_zero h with h | h
  · exact .inl (eq_of_toBits h)
  · exact .inr (eq_of_toBits h)

end Binary64

/-! ## Plain numbers -/

namespace Number

theorem eq_float_iff (x y : Float) :
    (float x).eq (float y) ↔ Binary64.Alike x.toModel.unpack y.toModel.unpack := by
  rw [← beq_iff]
  constructor
  · intro h
    simp only [eq, compare?, beq_iff_eq] at h
    split at h
    · cases h
    · split at h
      · cases h
      · split at h <;> simp_all
  · intro h
    have hx := (beq_iff x y).1 h
    simp [eq, compare?, not_lt_of_alike hx, not_lt_of_alike hx.symm, h]

theorem eq_whole_iff {a b : Number} {i j : Int} (ha : a.whole? = some i) (hb : b.whole? = some j) :
    a.eq b ↔ i = j := by
  cases a <;> cases b <;> simp_all [eq, compare?, whole?]

theorem cell_cases (a : Number) :
    (∃ x, a = float x) ∨ (a.cell = .int ∧ ∃ i, a.whole? = some i) := by
  cases a with
  | int i => exact .inr ⟨rfl, i, rfl⟩
  | bool b => exact .inr ⟨rfl, _, rfl⟩
  | float x => exact .inl ⟨x, rfl⟩

theorem same_iff (a b : Number) :
    a.same b ↔
      (∃ x y, a = float x ∧ b = float y ∧ Binary64.Alike x.toModel.unpack y.toModel.unpack) ∨
      (∃ i, a.whole? = some i ∧ b.whole? = some i) := by
  rcases cell_cases a with ⟨x, rfl⟩ | ⟨ha, i, hi⟩
  · rcases cell_cases b with ⟨y, rfl⟩ | ⟨hb, j, hj⟩
    · simp [same, eq_float_iff, whole?, cell]
    · cases b <;> simp_all [same, cell, whole?]
  · rcases cell_cases b with ⟨y, rfl⟩ | ⟨hb, j, hj⟩
    · cases a <;> simp_all [same, cell, whole?]
    · have hc : (a.cell == b.cell) := by simp [ha, hb]
      rw [same, hc, Bool.and_true, eq_whole_iff hi hj]
      constructor
      · rintro rfl
        exact .inr ⟨i, hi, hj⟩
      · rintro (⟨x, y, rfl, _⟩ | ⟨k, hk, hk'⟩)
        · cases hi
        · rw [hi] at hk
          rw [hj] at hk'
          cases hk
          cases hk'
          rfl

theorem cell_of_same {a b : Number} (h : a.same b) : a.cell = b.cell :=
  beq_iff_eq.1 (Bool.and_eq_true_iff.1 h).2

theorem same_symm {a b : Number} (h : a.same b) : b.same a := by
  rw [same_iff] at h ⊢
  obtain ⟨x, y, rfl, rfl, h⟩ | ⟨i, ha, hb⟩ := h
  · exact .inl ⟨y, x, rfl, rfl, h.symm⟩
  · exact .inr ⟨i, hb, ha⟩

theorem same_trans {a b c : Number} (h : a.same b) (h' : b.same c) : a.same c := by
  rw [same_iff] at h h' ⊢
  obtain ⟨x, y, rfl, rfl, hx⟩ | ⟨i, ha, hb⟩ := h
  · obtain ⟨y', z, hy, rfl, hz⟩ | ⟨i, hi, _⟩ := h'
    · cases hy
      exact .inl ⟨x, z, rfl, rfl, hx.trans hz⟩
    · cases hi
  · obtain ⟨y', z, rfl, _, _⟩ | ⟨j, hb', hc⟩ := h'
    · cases hb
    · rw [hb] at hb'
      cases hb'
      exact .inr ⟨i, ha, hc⟩

/-! ## Words -/

def OppositeZeros (a b : Number) : Prop :=
  (a = float 0.0 ∧ b = float (-0.0)) ∨ (a = float (-0.0) ∧ b = float 0.0)

/-- The word of a double is read off its sign, mantissa and exponent. -/
theorem ofDouble_congr {x y : Float} (h : x.toModel.unpack = y.toModel.unpack) :
    Word.ofDouble x = Word.ofDouble y := by
  have hi : x.isInf = y.isInf := by
    change x.toModel.unpack.isInf = y.toModel.unpack.isInf
    rw [h]
  have hn : Word.nearest x = Word.nearest y := by
    unfold Word.nearest
    rw [h]
  simp only [Word.ofDouble, hn, hi]

theorem ofDouble_of_alike {x y : Float} (h : Binary64.Alike x.toModel.unpack y.toModel.unpack) :
    Word.ofDouble x = Word.ofDouble y ∨ OppositeZeros (float x) (float y) := by
  generalize hu : x.toModel.unpack = u at h
  generalize hv : y.toModel.unpack = v at h
  cases h with
  | infinity s => exact .inl (ofDouble_congr (hu.trans hv.symm))
  | finite s m e hm => exact .inl (ofDouble_congr (hu.trans hv.symm))
  | zero s t =>
    rcases eq_zero_of_unpack hu with rfl | rfl <;>
      rcases eq_zero_of_unpack hv with rfl | rfl
    · exact .inl rfl
    · exact .inr (.inl ⟨rfl, rfl⟩)
    · exact .inr (.inr ⟨rfl, rfl⟩)
    · exact .inl rfl

theorem ofNumber_whole {a : Number} {i : Int} (h : a.whole? = some i) :
    Word.ofNumber a = Word.ofInt i := by
  cases a with
  | int j => simp_all [whole?, Word.ofNumber]
  | bool b =>
    obtain rfl : (if b then 1 else 0) = i := by simpa [whole?] using h
    cases b <;> rfl
  | float x => cases h

/-- Equal numbers of one cell type are stored as one word, but for opposite zeros. -/
theorem ofNumber_eq_or_zeros {a b : Number} (h : a.same b) :
    Word.ofNumber a = Word.ofNumber b ∨ OppositeZeros a b := by
  obtain ⟨x, y, rfl, rfl, hx⟩ | ⟨i, ha, hb⟩ := (same_iff a b).1 h
  · exact ofDouble_of_alike hx
  · exact .inl ((ofNumber_whole ha).trans (ofNumber_whole hb).symm)

end Number

end Patchwork
