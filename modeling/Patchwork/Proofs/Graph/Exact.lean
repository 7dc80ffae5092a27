import Patchwork.Proofs.Graph.Growth
import Patchwork.Scalar.Operators

/-!
# Exact evaluation

A graph of integers can be evaluated without a bound on the numbers: constants are worth what they
hold, named or not, and sums, differences, products and negatives are taken exactly. Sums and
products of values and plain integers are then worth what they say, whichever shortcuts they take.
-/

namespace Patchwork

open Graph

/-- An operation on integers without a bound; what is no such operation is worth zero. -/
def Operation.onIntegers : Operation → List Int → Int
  | .add, [i, j] => i + j
  | .sub, [i, j] => i - j
  | .mul, [i, j] => i * j
  | .neg, [i] => -i
  | _, _ => 0

def Node.integer : Node → Int
  | .constant n _ => n.whole?.getD 0
  | _ => 0

variable {g g' : Graph} {k : NodeId} {i : Int} {w : Value}

/-- The exact value of a node. -/
def Graph.exact (g : Graph) (k : NodeId) : Int :=
  g.fold (fun j => (g.node j).integer) (fun _ o is => o.onIntegers is) k

theorem Graph.Extends.exact (h : g.Extends g') (hk : k < g.size) : g'.exact k = g.exact k :=
  h.fold (fun j hj => by rw [h.node j hj]) (fun _ _ => rfl) hk

theorem Graph.exact_constant (g : Graph) (i : Int) (anonymous : Bool) :
    (g.push (.constant (.int i) anonymous)).exact g.size = i := by
  rw [exact, fold_leaf (by simp [Node.isOperation]), node_push_size]
  rfl

namespace Value

/-- A value of integers is worth an integer exactly. -/
structure Amounts (g : Graph) (i : Int) (w : Value) : Prop where
  inside : w.net.source < g.size
  exact_eq : g.exact w.net.source = i
  kind_eq : w.kind = .int

theorem Amounts.mono (h : w.Amounts g i) (he : g.Extends g') : w.Amounts g' i where
  inside := Nat.lt_of_lt_of_le h.inside he.size
  exact_eq := (he.exact h.inside).trans h.exact_eq
  kind_eq := h.kind_eq

theorem gives_constant (g : Graph) (i : Int) :
    (constant (.int i)).Gives g fun w g' => w.Amounts g' i :=
  ⟨_, _, rfl, extends_push g _, by simp, g.exact_constant i false, rfl⟩

theorem gives_literal (g : Graph) (i : Int) :
    (literal (.int i)).Gives g fun w g' => w.Amounts g' i :=
  ⟨_, _, rfl, extends_push g _, by simp [ofNet], g.exact_constant i true, rfl⟩

theorem amounts_apply {o : Operation} {w' : Value} {j : Int} (hw : w.Amounts g i)
    (hw' : w'.Amounts g j) (hr : o.result? [.int, .int] = some .int)
    (hs : o.onIntegers [j, i] = o.onIntegers [i, j]) :
    (Trace.apply o [w, w'] true).Gives g fun u g' => u.Amounts g' (o.onIntegers [i, j]) := by
  have hc : ∀ ws : List Value, ws.Perm [w, w'] →
      o.result? (ws.map fun u => u.kind.cell) = some .int := by
    intro ws hp
    rcases List.perm_pair.1 hp with rfl | rfl <;>
      simpa [hw.kind_eq, hw'.kind_eq, Kind.cell] using hr
  refine (Trace.gives_node o [w, w'] true fun ws hp => by simp [hc ws hp]).imp ?_
  rintro u g' - ⟨ws, cell, hp, -, hl, rfl, rfl⟩
  obtain rfl : Cell.int = cell := Option.some.inj ((hc ws hp).symm.trans hl)
  have hx := extends_push g (.apply o (ws.map net) true)
  have he := (hw.mono hx).exact_eq
  have he' := (hw'.mono hx).exact_eq
  refine ⟨by simp [ofNet], ?_, rfl⟩
  change Graph.exact _ g.size = _
  rcases List.perm_pair.1 hp with rfl | rfl
  · rw [Graph.exact, fold_apply (node_push_size g _) (by simp [hw.inside, hw'.inside])]
    change o.onIntegers [Graph.exact _ w.net.source, Graph.exact _ w'.net.source] = _
    rw [he, he']
  · rw [Graph.exact, fold_apply (node_push_size g _) (by simp [hw.inside, hw'.inside])]
    change o.onIntegers [Graph.exact _ w'.net.source, Graph.exact _ w.net.source] = _
    rw [he, he', hs]

end Value

namespace Scalar

/-- A scalar is worth an integer exactly: it is that integer, or a value that is worth it. -/
inductive Amounts (g : Graph) : Int → Scalar → Prop
  | plain (i : Int) : Amounts g i (int i)
  | traced {w : Value} {i : Int} (h : w.Amounts g i) : Amounts g i (traced w)

variable {o : Operation} {t : Scalar} {j : Int}

theorem Amounts.mono (h : t.Amounts g i) (he : g.Extends g') : t.Amounts g' i := by
  cases h with
  | plain => exact .plain i
  | traced h => exact .traced (h.mono he)

theorem amounts_operate (hw : w.Amounts g i) (ht : t.Amounts g j)
    (hr : o.result? [.int, .int] = some .int) (hs : o.onIntegers [j, i] = o.onIntegers [i, j]) :
    (operate o [traced w, t] true).Gives g fun s g' =>
      ∃ u, s = traced u ∧ u.Amounts g' (o.onIntegers [i, j]) := by
  have hl : (lift t).Gives g fun w' g' => w'.Amounts g' j := by
    cases ht with
    | plain => exact Value.gives_literal g j
    | traced h => exact .pure h
  rw [operate, List.mapM_cons, List.mapM_cons, List.mapM_nil]
  simp only [lift, pure_bind, bind_assoc]
  refine hl.bind fun w' g₁ he hw' => ?_
  exact (Value.amounts_apply (hw.mono he) hw' hr hs).bind fun u g₂ _ hu => .pure ⟨u, rfl, hu⟩

/-- A value plus a scalar; a plain zero is left out. -/
theorem amounts_add (hw : w.Amounts g i) (ht : t.Amounts g j) :
    (add (traced w) t).Gives g fun s g' => ∃ u, s = traced u ∧ u.Amounts g' (i + j) := by
  have ho := amounts_operate (o := .add) hw ht rfl (Int.add_comm j i)
  cases ht with
  | traced => exact ho
  | plain =>
    change (if (Number.int j).isZero then pure (traced w)
      else operate .add [traced w, int j] true : Trace Scalar).Gives g _
    split_ifs with h0
    · obtain rfl : j = 0 := (Number.eq_whole_iff rfl rfl).1 h0
      exact .pure ⟨w, rfl, by rwa [Int.add_zero]⟩
    · exact ho

/-- A value times an integer; one and zero give the value itself and a plain zero. -/
theorem amounts_scale (hw : w.Amounts g i) (j : Int) :
    (scale w (.int j)).Gives g fun s g' => s.Amounts g' (i * j) := by
  have ho := amounts_operate (o := .mul) hw (.plain j) rfl (Int.mul_comm j i)
  simp only [scale, hw.kind_eq, reduceCtorEq, if_false, pure_bind]
  split_ifs with hn h0
  · obtain rfl : j = 1 := (Number.eq_whole_iff rfl rfl).1 hn
    exact .pure (.traced (by rwa [Int.mul_one]))
  · obtain rfl : j = 0 := (Number.eq_whole_iff rfl rfl).1 h0
    exact .pure (by simpa using .plain 0)
  · refine ho.imp ?_
    rintro _ g' - ⟨u, rfl, hu⟩
    exact .traced hu

theorem amounts_mul {s : Scalar} (hs : s.Amounts g i) (ht : t.Amounts g j) :
    (mul s t).Gives g fun u g' => u.Amounts g' (i * j) := by
  cases hs with
  | plain => cases ht with
    | plain => exact .pure (.plain (i * j))
    | traced hw => exact Int.mul_comm j i ▸ amounts_scale hw i
  | traced hw => cases ht with
    | plain => exact amounts_scale hw j
    | traced hw' =>
      refine (amounts_operate (o := .mul) hw (.traced hw') rfl (Int.mul_comm j i)).imp ?_
      rintro _ g' - ⟨u, rfl, hu⟩
      exact .traced hu

end Scalar

end Patchwork
