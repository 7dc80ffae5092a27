import Patchwork.Proofs.Number.Equality
import Patchwork.Proofs.Number.Whole
import Mathlib.Algebra.Order.Field.Rat
import Mathlib.Data.Rat.Cast.Defs
import Mathlib.Tactic.Positivity

/-!
# The rational number of a plain number

Every finite number stands for a rational number, and equal numbers for the same one, whether
they are integers, truth values or doubles.
-/

namespace Patchwork

/-- The rational number that a plain number stands for; zero if it is not finite. -/
def Binary64.Parts.rational : Binary64.Parts → ℚ
  | .finite negative m e => (if negative then -(m : ℚ) else m) * 2 ^ e
  | _ => 0

/-- The rational number that a plain number stands for; zero if it is not finite. -/
def Number.rational : Number → ℚ
  | .int i => i
  | .bool b => if b then 1 else 0
  | .float x => (Binary64.decode x).rational

theorem Number.rational_whole {n : Number} {i : Int} (h : n.whole? = some i) : n.rational = i := by
  cases n with
  | int j => cases h; rfl
  | bool b => cases b <;> cases h <;> simp [rational]
  | float x => cases h

/-- An integer that compares as equal to a double is what the double stands for. -/
theorem Binary64.rational_of_compareInt {i : Int} {x : Float} (h : compareInt i x = .eq) :
    (decode x).rational = i := by
  rw [compareInt] at h
  cases hx : decode x with
  | nan => simp [hx] at h
  | infinite negative => cases negative <;> simp [hx] at h
  | finite negative m e =>
    rw [hx] at h
    dsimp only at h
    have hs : (if negative then -(m : ℚ) else m) =
        ((if negative then -(m : Int) else m : Int) : ℚ) := by cases negative <;> simp
    rw [Parts.rational, hs]
    split at h
    · next he =>
      rw [Int.compare_eq_eq] at h
      obtain ⟨n, rfl⟩ : ∃ n : Nat, e = -n := ⟨e.natAbs, by omega⟩
      rw [← h, zpow_neg, zpow_natCast, Int.natAbs_neg, Int.natAbs_natCast]
      push_cast
      exact mul_inv_cancel_right₀ (by positivity) _
    · next he =>
      rw [Int.compare_eq_eq] at h
      obtain ⟨n, rfl⟩ : ∃ n : Nat, e = n := ⟨e.toNat, by omega⟩
      rw [h, zpow_natCast, Int.toNat_natCast]
      push_cast
      rfl

theorem Number.rational_of_eq {m n : Number} (h : m.eq n) : m.rational = n.rational := by
  have hm : ∀ {x : Float} {n : Number} {i : Int}, n.whole? = some i →
      Binary64.compareInt i x = .eq → (Binary64.decode x).rational = n.rational :=
    fun hi hx => (Binary64.rational_of_compareInt hx).trans (rational_whole hi).symm
  rcases cell_cases m with ⟨x, rfl⟩ | ⟨-, i, hi⟩ <;> rcases cell_cases n with ⟨y, rfl⟩ | ⟨-, j, hj⟩
  · rw [eq_float_iff] at h
    rw [rational, rational, Binary64.decode_eq, Binary64.decode_eq]
    generalize x.toModel.unpack = u at h
    generalize y.toModel.unpack = v at h
    cases h with
    | zero s t => simp [Binary64.Parts.rational]
    | _ => rfl
  · refine hm hj ?_
    cases n <;> cases hj <;> simp only [eq, compare?] at h <;> split at h <;> simp_all [whole?]
  · refine (hm hi ?_).symm
    cases m <;> cases hi <;> simp only [eq, compare?] at h <;> split at h <;> simp_all [whole?]
  · rw [eq_whole_iff hi hj] at h
    rw [rational_whole hi, rational_whole hj, h]

end Patchwork
