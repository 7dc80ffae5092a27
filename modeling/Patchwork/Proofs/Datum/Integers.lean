import Patchwork.Datum.Routines
import Patchwork.Proofs.Datum.Elementwise

/-!
# Arithmetic on plain integers

Plain integers among data are added and multiplied exactly and at once: nothing is appended to the
graph. So a sum over a list of integers is the sum of the list, in whatever way it is taken.
-/

namespace Patchwork

open List

/-! ## Steps without effect -/

section Steps

variable {m : Type → Type} [Monad m] [LawfulMonad m] {α β : Type} {xs : List α}

theorem mapM_pure_map {f : α → m β} {h : α → β} (hf : ∀ x ∈ xs, f x = pure (h x)) :
    xs.mapM f = pure (xs.map h) := by
  induction xs with
  | nil => simp
  | cons x xs ih =>
    obtain ⟨hx, hs⟩ := forall_mem_cons.1 hf
    rw [mapM_cons, hx, ih hs]
    simp

end Steps

namespace Datum

open Arithmetic

/-- Arithmetic on data that treats scalars as scalars. -/
structure Scalarwise (arithmetic : Arithmetic Trace Datum) : Prop where
  literal : ∀ i : Int, arithmetic.literal (.int i) = int i
  named : ∀ i : Int, arithmetic.named (int i) = traced <$> Value.constant (.int i)
  isTraced : ∀ s, arithmetic.isTraced (scalar s) = s.isTraced
  binary : ∀ o a b, arithmetic.binary o (scalar a) (scalar b) = scalar <$> Scalar.binary o a b

theorem scalarwise_arithmeticBy {rec : Dyadic → Datum → Datum → Trace Datum}
    (h : ∀ o a b, rec (.operator o) (scalar a) (scalar b) = scalar <$> Scalar.binary o a b) :
    Scalarwise (arithmeticBy rec) := ⟨fun _ => rfl, fun _ => rfl, fun _ => rfl, h⟩

theorem scalarwise_dyadicTo (n : Nat) : Scalarwise (arithmeticBy (dyadicTo (n + 1))) :=
  scalarwise_arithmeticBy (dyadicTo_scalar n)

theorem scalarwise_dyadic : Scalarwise (arithmeticBy dyadic) :=
  scalarwise_arithmeticBy fun _ _ _ => rfl

namespace Scalarwise

variable [arithmetic : Arithmetic Trace Datum]

theorem add_int (h : Scalarwise arithmetic) (i j : Int) :
    (add (int i) (int j) : Trace Datum) = pure (int (i + j)) := h.binary .add (.int i) (.int j)

theorem mul_int (h : Scalarwise arithmetic) (i j : Int) :
    (mul (int i) (int j) : Trace Datum) = pure (int (i * j)) := h.binary .mul (.int i) (.int j)

theorem total_int (h : Scalarwise arithmetic) (is : List Int) :
    (total (is.map int) : Trace Datum) = pure (int is.sum) := by
  have hf : ∀ i : Int, (is.map int).foldlM add (int i) = (pure (int (i + is.sum)) : Trace Datum) := by
    induction is with
    | nil => simp
    | cons j is ih =>
      intro i
      rw [map_cons, foldlM_cons, h.add_int, pure_bind, ih, sum_cons, Int.add_assoc]
  have h0 : (Arithmetic.int Trace 0 : Datum) = int 0 := h.literal 0
  rw [total, h0, hf, Int.zero_add]

/-- The sum of a list of plain integers with the traced ones apart: there are none. -/
theorem mixedTotal_int (h : Scalarwise arithmetic) (is : List Int) :
    (mixedTotal (is.map int) : Trace Datum) = pure (int is.sum) := by
  have hp : ∀ d ∈ is.map int, Arithmetic.isTraced Trace d = false := by
    intro d hd
    obtain ⟨i, -, rfl⟩ := mem_map.1 hd
    exact h.isTraced (.int i)
  have hk : (is.map int).filter (fun d => !Arithmetic.isTraced Trace d) = is.map int :=
    filter_eq_self.2 fun d hd => by rw [hp d hd, Bool.not_false]
  have hn : (is.map int).filter (fun d => Arithmetic.isTraced Trace d) = ([] : List Int).map int :=
    filter_eq_nil_iff.2 fun d hd => by simp [hp d hd]
  rw [mixedTotal, hk, hn, h.total_int, h.total_int, pure_bind, pure_bind, h.add_int]
  simp

end Scalarwise

/-! ## Tensors of integers -/

def ints (t : Tensor Int) : Tensor Datum := ⟨t.shape, t.values.map int⟩

def ofInts (t : Tensor Int) : Datum := ofTensor (ints t)

theorem isSingle_int (i : Int) : Tensor.IsSingle (int i) := isSingle_scalar (.int i)

@[simp] theorem ints_shape (t : Tensor Int) : (ints t).shape = t.shape := rfl

@[simp] theorem ints_rank (t : Tensor Int) : (ints t).rank = t.rank := rfl

theorem mixedTotal_ints (t : Tensor Int) :
    (Arithmetic.mixedTotal (ints t).values : Trace Datum) = pure (int t.values.sum) :=
  scalarwise_dyadic.mixedTotal_int t.values

theorem build_ints {s : Shape} {is : List Int} (his : is ≠ []) (hs : s ≠ []) :
    Tensor.build (is.map int) s = .ok (ints ⟨s, is⟩) :=
  Tensor.build_of_isSingle (forall_mem_map.2 fun i _ => isSingle_int i) (by simpa using his) hs

end Datum

end Patchwork
