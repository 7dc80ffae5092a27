import Patchwork.Proofs.Datum.Diagonal
import Patchwork.Proofs.Datum.Spread

/-!
# Products of vectors and tensors

A vector takes a tensor for the list of its elements: their product is a product of lists, which
need one length, whatever the shape.
-/

namespace Patchwork

open List

namespace Datum

open Arithmetic Tensor

variable {v : List Int} {M : Tensor Int}

theorem Scalarwise.products_int [arithmetic : Arithmetic Trace Datum] (h : Scalarwise arithmetic)
    (v w : List Int) : (((v.map int).zip (w.map int)).mapM fun p => mul p.1 p.2 : Trace _) =
      pure ((zipWith (· * ·) v w).map int) := by
  have hp : ((v.zip w).mapM fun p => mul (int p.1) (int p.2) : Trace _) =
      pure ((v.zip w).map fun p => int (p.1 * p.2)) := mapM_pure_map fun p _ => h.mul_int p.1 p.2
  rw [zip_map, mapM_map, map_zipWith]
  exact hp.trans (congrArg pure map_zip_eq_zipWith)

/-- The product of two lists. -/
def listProduct (v w : List Int) : Int := (List.zipWith (· * ·) v w).sum

theorem vector_matmul (v : List Int) (M : Tensor Int) :
    binary .matmul (vector (v.map int)) (ofInts M) =
      if v.length = M.values.length then pure (int (listProduct v M.values))
      else throw (.violated .sameLength) := by
  have hd : ∃ n, binary .matmul (vector (v.map int)) (ofInts M) =
      letI := arithmeticBy (dyadicTo (n + 3)); Vector.dot (v.map int) (M.values.map int) := ⟨_, rfl⟩
  obtain ⟨n, hd⟩ := hd
  let := arithmeticBy (dyadicTo (n + 3))
  have h : Scalarwise this := scalarwise_dyadicTo (n + 2)
  rw [hd, Vector.dot, Vector.zipWith, length_map, length_map]
  split_ifs
  · change (((v.map int).zip (M.values.map int)).mapM (fun p => mul p.1 p.2) >>= _) = _
    rw [h.products_int, pure_bind, h.mixedTotal_int, listProduct]
  · rfl

/-- The product with a vector that is made a tensor first. -/
def rowTimes (v : List Int) (M : Tensor Int) : Trace Datum := do
  binary .matmul (← makeTensor (vector (v.map int)) absent) (ofInts M)

theorem rowTimes_eq :
    rowTimes v M = binary .matmul (ofInts ⟨[(v.length : Int)], v⟩) (ofInts M) := by
  have hm : makeTensor (vector (v.map int)) absent =
      pure (ofTensor ⟨[((v.map int).length : Int)], v.map int⟩) := rfl
  rw [rowTimes, hm, length_map]
  rfl

theorem rowTimes_line (hs : M.shape = [(v.length : Int)]) :
    rowTimes v M = pure (int (listProduct v M.values)) := by
  obtain ⟨this, h, heq⟩ := exists_matmul (a := ints ⟨[(v.length : Int)], v⟩)
    (.inl rfl : Multiplies (ints M) _)
  rw [rowTimes_eq, ofInts, ofInts, heq]
  simp only [matmul, ints, hs, ne_eq, not_true_eq_false, if_false]
  rw [h.products_int, pure_bind, h.mixedTotal_int]
  rfl

theorem product_column (hM : M.Full) (hs : M.shape = [(v.length : Int), 1]) :
    Tensor.product v.length (entries ⟨[1, (v.length : Int)], v⟩) M.entries 0 0 =
      listProduct v M.values := by
  have hl : M.values.length = v.length := by
    have hz := hM.length
    simpa [Tensor.size, Shape.size, hs] using hz
  have he : M.entries = entries ⟨[(v.length : Int), 1], M.values⟩ := by rw [← hs]
  rw [listProduct, zipWith_mul_eq rfl hl, Tensor.product, he]
  simp only [entries_row, entries_column]

/-- **A vector times a tensor is a product of lists.** It is the product of tensors if the tensor
has one dimension, and its only element if that is a column. With more columns there is none, though
there is one of tensors. -/
theorem vector_matmul_flattens (hM : M.Full) :
    (M.shape = [(v.length : Int)] →
      binary .matmul (vector (v.map int)) (ofInts M) = pure (int (listProduct v M.values)) ∧
      rowTimes v M = pure (int (listProduct v M.values))) ∧
    (M.shape = [(v.length : Int), 1] →
      binary .matmul (vector (v.map int)) (ofInts M) = pure (int (listProduct v M.values)) ∧
      rowTimes v M = pure (ofInts ⟨[1], [listProduct v M.values]⟩)) ∧
    ∀ m, 1 < m → M.shape = [(v.length : Int), m] →
      binary .matmul (vector (v.map int)) (ofInts M) = throw (.violated .sameLength) ∧
      rowTimes v M = pure (ofInts (line m
        (Tensor.product v.length (entries ⟨[1, (v.length : Int)], v⟩) M.entries 0))) := by
  have hi := hM.length
  rw [vector_matmul]
  refine ⟨fun hs => ?_, fun hs => ?_, fun m hm hs => ?_⟩
  · have hl : v.length = M.values.length := by
      simpa [Tensor.size, Shape.size, hs, eq_comm] using hi
    exact ⟨if_pos hl, rowTimes_line hs⟩
  · have hl : v.length = M.values.length := by
      simpa [Tensor.size, Shape.size, hs, eq_comm] using hi
    refine ⟨if_pos hl, ?_⟩
    rw [rowTimes_eq, binary_row hM.covered hs rfl, ← product_column hM hs]
    rfl
  · have hp : 0 < (v.length : Int) := hM.positive _ (by simp [hs])
    have hl : v.length ≠ M.values.length := by
      have hv : (M.values.length : Int) = v.length * m := by
        simpa [Tensor.size, Shape.size, hs] using hi
      have ho := Int.mul_lt_mul_of_pos_left hm hp
      omega
    exact ⟨if_neg hl, rowTimes_eq.trans (binary_row hM.covered hs rfl)⟩

/-- A vector and a column of the same length. -/
theorem pair_flattens :
    binary .matmul (vector [int 1, int 2]) (ofInts ⟨[2, 1], [3, 4]⟩) = pure (int 11) ∧
      rowTimes [1, 2] ⟨[2, 1], [3, 4]⟩ = pure (ofInts ⟨[1], [11]⟩) :=
  (vector_matmul_flattens (v := [1, 2]) ⟨by decide, rfl⟩).2.1 rfl

/-- The product with a column is a number, and with a square matrix there is none. -/
theorem pair_differs :
    binary .matmul (vector [int 1, int 2]) (ofInts ⟨[2, 1], [3, 4]⟩) .empty = .ok (int 11, .empty) ∧
    rowTimes [1, 2] ⟨[2, 1], [3, 4]⟩ .empty = .ok (ofInts ⟨[1], [11]⟩, .empty) ∧
    binary .matmul (vector [int 1, int 2]) (ofInts ⟨[2, 2], [3, 4, 5, 6]⟩) .empty =
      .error (.violated .sameLength) ∧
    rowTimes [1, 2] ⟨[2, 2], [3, 4, 5, 6]⟩ .empty = .ok (ofInts ⟨[2], [13, 16]⟩, .empty) :=
  ⟨rfl, rfl, rfl, rfl⟩

end Datum

end Patchwork
