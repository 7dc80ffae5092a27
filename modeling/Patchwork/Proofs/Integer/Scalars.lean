import Patchwork.Proofs.Graph.Merging
import Patchwork.Proofs.Graph.Growth
import Patchwork.Proofs.Integer.Words

/-!
# Integer operators on scalars

An operator on two plain numbers is exact arithmetic, and with a traced operand it appends a
node that the machine computes on words. Both give the same integer as long as it fits in a
word. That covers every way through the operators: with plain operands on either side, with
the shortcuts for zero and one, and with truth values among the operands.
-/

namespace Patchwork

open Graph List

open Word (Fits whole)

variable {g g' : Graph} {given : NodeId → Word} {k : NodeId}

namespace Graph

/-- The words of the leaves of a graph: an anonymous constant has its own, and the others are
given. -/
def words (given : NodeId → Word) (g : Graph) (k : NodeId) : Word :=
  match g.node k with
  | .constant _ true => g.startWord k
  | _ => given k

theorem Extends.words (h : g.Extends g') (hk : k < g.size) : g'.words given k = g.words given k := by
  rw [Graph.words, Graph.words, Graph.startWord, Graph.startWord, Target.startWord, Target.startWord,
    h.node k hk]

/-- Values are computed downwards only, so new nodes do not change them. -/
theorem Extends.evaluate (h : g.Extends g') {i : Interpretation} {v v' : NodeId → Word}
    (hv : ∀ j < g.size, v' j = v j) (hk : k < g.size) : g'.evaluate i v' k = g.evaluate i v k := by
  induction k using Nat.strongRecOn with
  | _ k ih =>
    rw [Graph.evaluate, Graph.evaluate, h.node k hk]
    cases g.node k with
    | apply o args c =>
      refine congrArg (i.applied o) (map_congr_left fun a _ => ?_)
      by_cases ha : a.source < k
      · simp only [if_pos ha, ih a.source ha (Nat.lt_trans ha hk)]
      · simp only [if_neg ha]
    | _ => exact hv k hk

theorem evaluate_push_apply {i : Interpretation} {v v' : NodeId → Word} {o : Operation}
    {args : List Net} {c : Bool} (hv : ∀ j < g.size, v' j = v j)
    (hg : ∀ a ∈ args, a.source < g.size) :
    (g.push (.apply o args c)).evaluate i v' g.size =
      i.applied o (operands (g.evaluate i v) args) := by
  rw [evaluate, node_push_size]
  refine congrArg (i.applied o) (map_congr_left fun a ha => ?_)
  simp only [if_pos (hg a ha), (extends_push g _).evaluate hv (hg a ha)]

end Graph

/-! ## Whole numbers -/

namespace Number

variable {a b : Number} {i j : Int}

section

variable (ha : a.whole? = some i)

include ha

theorem lift_whole {onInts : Int → Int → Except Fault Number}
    {onFloats : Float → Float → Except Fault Number}
    (hb : b.whole? = some j) : lift onInts onFloats a b = onInts i j := by
  rw [lift, ha, hb]

theorem add_whole (hb : b.whole? = some j) :
    a.add b = .ok (.int (i + j)) := lift_whole ha hb

theorem sub_whole (hb : b.whole? = some j) :
    a.sub b = .ok (.int (i - j)) := lift_whole ha hb

theorem mul_whole (hb : b.whole? = some j) :
    a.mul b = .ok (.int (i * j)) := lift_whole ha hb

theorem floorDiv_whole (hb : b.whole? = some j) (hn : j ≠ 0) :
    a.floorDiv b = .ok (.int (i.fdiv j)) := (lift_whole ha hb).trans (if_neg hn)

theorem shiftLeft_whole {n : Nat} (hb : b.whole? = some (n : Int)) :
    a.shiftLeft b = .ok (.int (i * 2 ^ n)) := by
  rw [shiftLeft, ha, hb]
  exact if_neg (by omega)

theorem shiftRight_whole {n : Nat} (hb : b.whole? = some (n : Int)) :
    a.shiftRight b = .ok (.int (i.fdiv (2 ^ n))) := by
  rw [shiftRight, ha, hb]
  exact if_neg (by omega)

omit ha in
theorem bitwise_whole {onBools : Bool → Bool → Bool} {onInts : Int → Int → Int}
    (h : ∀ p q : Bool, (if onBools p q then 1 else 0) = onInts (if p then 1 else 0) (if q then 1 else 0))
    (ha : a.whole? = some i) (hb : b.whole? = some j) :
    ∃ n, bitwise onBools onInts a b = .ok n ∧ n.whole? = some (onInts i j) := by
  cases a <;> cases b <;> cases ha <;> cases hb
  case bool.bool p q => exact ⟨_, rfl, congrArg some (h p q)⟩
  all_goals exact ⟨_, rfl, rfl⟩

theorem bitAnd_whole (hb : b.whole? = some j) :
    ∃ n, a.bitAnd b = .ok n ∧ n.whole? = some (i.land j) := by
  rw [← Bits.and_eq_land]
  exact bitwise_whole (by decide) ha hb

theorem bitOr_whole (hb : b.whole? = some j) :
    ∃ n, a.bitOr b = .ok n ∧ n.whole? = some (i.lor j) := by
  rw [← Bits.or_eq_lor]
  exact bitwise_whole (by decide) ha hb

theorem bitXor_whole (hb : b.whole? = some j) :
    ∃ n, a.bitXor b = .ok n ∧ n.whole? = some (i.xor j) := by
  exact bitwise_whole (by decide) ha hb

theorem neg_whole : a.neg.whole? = some (-i) := by
  cases a with
  | int j => cases ha; rfl
  | bool b => cases ha; cases b <;> rfl
  | float x => cases ha

theorem abs_whole : a.abs.whole? = some (i.natAbs : Int) := by
  cases a with
  | int j => cases ha; rfl
  | bool b => cases ha; cases b <;> rfl
  | float x => cases ha

theorem pow_whole {n : Nat} (hb : b.whole? = some (n : Int)) :
    a.pow b = .ok (.int (i ^ n)) := (lift_whole ha hb).trans (if_pos (by omega))

theorem isZero_whole : a.isZero ↔ i = 0 := eq_whole_iff ha rfl

theorem lt_whole (hb : b.whole? = some j) : a.lt b ↔ i < j := by
  cases a <;> cases b <;> simp_all [lt, compare?, whole?, compare_lt_iff_lt]

theorem le_whole (hb : b.whole? = some j) : a.le b ↔ i ≤ j := by
  rw [le, Bool.or_eq_true, lt_whole ha hb, eq_whole_iff ha hb]
  omega

end

end Number

/-! ## Scalars that stand for integers -/

def Value.word (given : NodeId → Word) (g : Graph) (w : Value) : Word :=
  g.evaluate .native (g.words given) w.net.source

/-- A traced value holds an integer: it stands in the graph, its cell is an integer one, and
its word is that of the integer, which fits. A truth value is 0 or 1. -/
structure Value.Holds (given : NodeId → Word) (g : Graph) (w : Value) (i : Int) : Prop where
  known : w.net.source < g.size
  cell : w.net.cell = .int
  kind : w.kind ≠ .float
  word : w.word given g = whole i
  fits : Fits i
  truth : w.kind = .bool → i = 0 ∨ i = 1

/-- A scalar stands for an integer that fits. Without words for the named constants only a
plain number does. -/
def Scalar.Holds (known : Option (NodeId → Word)) (g : Graph) (i : Int) : Scalar → Prop
  | .plain n => n.whole? = some i ∧ Fits i
  | .traced w => ∃ given, known = some given ∧ w.Holds given g i

variable {known : Option (NodeId → Word)} {i j m : Int} {s t : Scalar} {w w' : Value}

theorem Value.Holds.mono (h : w.Holds given g i) (he : g.Extends g') : w.Holds given g' i :=
  { h with
    known := Nat.lt_of_lt_of_le h.known he.size
    word := (he.evaluate (fun _ hj => he.words hj) h.known).trans h.word }

theorem Value.Holds.kind_cell (h : w.Holds given g i) : w.kind.cell = .int := by
  have hk := h.kind
  cases hw : w.kind with
  | float => exact absurd hw hk
  | _ => rfl

theorem Scalar.Holds.mono (h : s.Holds known g i) (he : g.Extends g') : s.Holds known g' i := by
  cases s with
  | plain n => exact h
  | traced w =>
    obtain ⟨given, rfl, hw⟩ := h
    exact ⟨given, rfl, hw.mono he⟩

theorem Scalar.Holds.fits (h : s.Holds known g i) : Fits i := by
  cases s with
  | plain n => exact h.2
  | traced w =>
    obtain ⟨given, rfl, hw⟩ := h
    exact hw.fits

/-- What is read of a scalar once the machine has run: a plain number is itself. -/
def Scalar.reading (given : NodeId → Word) (g : Graph) : Scalar → Number
  | .plain n => n
  | .traced w => (w.word given g).number w.kind

theorem Scalar.Holds.whole?_reading (h : s.Holds (some given) g i) :
    (s.reading given g).whole? = some i := by
  cases s with
  | plain n => exact h.1
  | traced w =>
    obtain ⟨_, ⟨⟩, hw⟩ := h
    rw [reading, hw.word]
    cases hk : w.kind with
    | int => exact congrArg some (Word.toInt_ofInt hw.fits)
    | float => exact absurd hk hw.kind
    | bool => obtain rfl | rfl := hw.truth hk <;> rfl

theorem Value.holds_constant {n : Int} (hn : g.node k = .constant (.int n) false)
    (hw : given k = whole i) (hf : Fits i) : (⟨⟨.int, k⟩, .int⟩ : Value).Holds given g i := by
  refine ⟨?_, rfl, nofun, ?_, hf, nofun⟩
  · by_contra hs
    rw [node_of_size_le (by simpa using hs)] at hn
    cases hn
  · rw [Value.word, evaluate_leaf (by rw [hn]; rfl), Graph.words, hn]
    exact hw

namespace Scalar

theorem holds_traced (h : w.Holds given g i) : (traced w).Holds (some given) g i := ⟨given, rfl, h⟩

/-! ## Appended operations -/

theorem gives_value (hs : s.Holds (some given) g i) :
    s.lift.Gives g fun w g' => w.Holds given g' i := by
  cases s with
  | plain n =>
    obtain ⟨hn, hf⟩ := hs
    have hc : n.cell = .int := by
      cases n with
      | float x => cases hn
      | _ => rfl
    have hd : (g.push (.constant n true)).node g.size = .constant n true := node_push_size g _
    have ht := startWord_constant hd
    rw [Word.ofNumber_eq_whole hn hf] at ht
    refine ⟨.ofNet ⟨n.cell, g.size⟩, g.push (.constant n true), rfl, extends_push g _,
      ?_, ?_, ?_, ?_, hf, ?_⟩
    · simp [Value.ofNet]
    · exact hc
    · simp [Value.ofNet, hc, Kind.ofCell]
    · change Graph.evaluate .native _ _ g.size = _
      rw [evaluate_leaf (by rw [hd]; rfl), Graph.words, hd]
      exact ht
    · simp [Value.ofNet, hc, Kind.ofCell]
  | traced w =>
    obtain ⟨_, ⟨⟩, hw⟩ := hs
    exact .pure hw

/-- An appended operation on integers computes on the words of its operands, and may see them
in another order if it is marked as commutative. -/
theorem gives_application {o : Operation} {ws : List Value} (c : Bool)
    (hs : ∀ w ∈ ws, ∃ i, w.Holds given g i)
    (hr : o.result? (ws.map fun _ => .int) = some .int) (hf : Fits m)
    (hd : ∀ ws' : List Value, ws'.Perm ws → (c = false → ws' = ws) →
      Interpretation.native.applied o (ws'.map fun w => (.int, w.word given g)) = whole m) :
    (Trace.apply o ws c).Gives g fun w g' => w.Holds given g' m := by
  have hc : ∀ ws' : List Value, ws'.Perm ws →
      (ws'.map fun w => w.kind.cell) = ws.map fun _ => .int := by
    intro ws' hp
    rw [map_congr_left (g := fun _ => Cell.int)]
    · simp [hp.length_eq]
    · intro w hw
      obtain ⟨i, hi⟩ := hs w (hp.mem_iff.1 hw)
      exact hi.kind_cell
  refine (Trace.gives_node o ws c fun ws' hp => ?_).imp ?_
  · rw [hc ws' hp, hr]
    rfl
  rintro w g' - ⟨ws', cell, hp, hm, hl, rfl, rfl⟩
  rw [hc ws' hp, hr] at hl
  cases hl
  have hg : ∀ a ∈ ws'.map Value.net, a.source < g.size := by
    intro a ha
    obtain ⟨w, hw, rfl⟩ := mem_map.1 ha
    obtain ⟨i, hi⟩ := hs w (hp.mem_iff.1 hw)
    exact hi.known
  refine ⟨by simp [Value.ofNet], rfl, nofun, ?_, hf, nofun⟩
  refine (evaluate_push_apply (fun j hj => (extends_push g _).words hj) hg).trans ?_
  rw [← hd ws' hp hm, Graph.operands, List.map_map]
  refine congrArg _ (map_congr_left fun w hw => ?_)
  obtain ⟨i, hi⟩ := hs w (hp.mem_iff.1 hw)
  exact congrArg (·, _) hi.cell

end Scalar

namespace Scalar

variable {o : Operation} {c : Bool}

theorem gives_values (hs : s.Holds (some given) g i) (ht : t.Holds (some given) g j) :
    Trace.Gives ([s, t].mapM lift) g fun ws g' =>
      ∃ w w', ws = [w, w'] ∧ w.Holds given g' i ∧ w'.Holds given g' j := by
  rw [mapM_cons]
  refine (gives_value hs).bind fun w g₁ he hw => ?_
  refine Trace.Gives.bind (p := fun ws g' => ∃ w', ws = [w'] ∧ w'.Holds given g' j) ?_ ?_
  · exact (gives_value (ht.mono he)).bind fun w' g₂ _ hw' => .pure ⟨w', rfl, hw'⟩
  · rintro _ g₂ he' ⟨w', rfl, hw'⟩
    exact .pure ⟨w, w', rfl, hw.mono he', hw'⟩

theorem gives_apply_pair (ho : o.Computes c i j m) (hw : w.Holds given g i)
    (hw' : w'.Holds given g j) :
    (Trace.apply o [w, w'] c).Gives g fun r g' => r.Holds given g' m := by
  refine gives_application c ?_ ho.typed ho.fits fun ws hp hs => ?_
  · simpa using ⟨⟨i, hw⟩, ⟨j, hw'⟩⟩
  · obtain ⟨a, b, rfl⟩ := length_eq_two.1 hp.length_eq
    cases c with
    | false =>
      rw [hs rfl, map_cons, map_cons, hw.word, hw'.word]
      exact ho.word
    | true =>
      obtain ⟨rfl, rfl⟩ | ⟨rfl, rfl⟩ := pair_of_perm hp.symm
      · rw [map_cons, map_cons, hw.word, hw'.word]
        exact ho.word
      · rw [map_cons, map_cons, hw.word, hw'.word]
        exact ho.exchanged rfl

theorem gives_operation (ho : o.Computes c i j m) (hs : s.Holds (some given) g i)
    (ht : t.Holds (some given) g j) :
    (operate o [s, t] c).Gives g fun r g' => r.Holds (some given) g' m := by
  refine (gives_values hs ht).bind ?_
  rintro _ g₁ _ ⟨w, w', rfl, hw, hw'⟩
  exact (gives_apply_pair ho hw hw').bind fun r g₂ _ hr => .pure (holds_traced hr)

theorem gives_comparison (ho : o.Computes c i j m) (hm : m = 0 ∨ m = 1)
    (hs : s.Holds (some given) g i) (ht : t.Holds (some given) g j) :
    (comparison o [s, t] c).Gives g fun r g' => r.Holds (some given) g' m := by
  refine (gives_values hs ht).bind ?_
  rintro _ g₁ _ ⟨w, w', rfl, hw, hw'⟩
  refine Trace.Gives.bind ?_ fun r g₂ _ hr =>
    .pure (holds_traced hr)
  refine (gives_apply_pair ho hw hw').bind fun r g₂ _ hr => .pure ?_
  exact { hr with kind := nofun, truth := fun _ => hm }

theorem gives_single (ho : o.result? [.int] = some .int) (hf : Fits m)
    (hd : Stencil.native o [.int] (whole i) 0 = whole m) (hw : w.Holds given g i) :
    (operate o [traced w]).Gives g fun r g' => r.Holds (some given) g' m := by
  refine Trace.Gives.bind (p := fun ws g' => ws = [w] ∧ w.Holds given g' i) ?_ ?_
  · rw [mapM_cons, mapM_nil]
    exact .pure ⟨rfl, hw⟩
  · rintro _ g₁ _ ⟨rfl, hw⟩
    refine (gives_application false ?_ ho hf fun ws _ hs => ?_).bind fun r g₂ _ hr =>
      .pure (holds_traced hr)
    · simpa using ⟨i, hw⟩
    · rw [hs rfl, map_cons, hw.word]
      exact hd

theorem gives_number {n : Number} (hn : n.whole? = some m) (hf : Fits m) :
    (arithmetic (.ok n)).Gives g fun r g' => r.Holds known g' m := .pure ⟨hn, hf⟩

/-- An operator without shortcuts computes on numbers or appends an operation. -/
theorem gives_either {f : Number → Number → Except Fault Number} (ho : o.Computes c i j m)
    (hf : ∀ a b : Number, a.whole? = some i → b.whole? = some j →
      ∃ n, f a b = .ok n ∧ n.whole? = some m) (hs : s.Holds known g i) (ht : t.Holds known g j) :
    (either f o c s t).Gives g fun r g' => r.Holds known g' m := by
  cases s with
  | plain a =>
    cases t with
    | plain b =>
      obtain ⟨n, hn, hm⟩ := hf a b hs.1 ht.1
      rw [either, hn]
      exact gives_number hm ho.fits
    | traced v =>
      obtain ⟨given, rfl, -⟩ := id ht
      exact gives_operation ho hs ht
  | traced v =>
    obtain ⟨given, rfl, -⟩ := id hs
    exact gives_operation ho hs ht

/-! ## Shortcuts -/

theorem gives_sum (hf : Fits (i + j)) (hs : s.Holds known g i) (ht : t.Holds known g j) :
    (add s t).Gives g fun r g' => r.Holds known g' (i + j) := by
  have hc := Operation.computes_add hf
  have he : Operation.add.Computes true j i (i + j) := ⟨rfl, hc.exchanged rfl, fun _ => hc.word, hf⟩
  cases s with
  | plain a =>
    cases t with
    | plain b =>
      rw [add, Number.add_whole hs.1 ht.1]
      exact gives_number rfl hf
    | traced v =>
      obtain ⟨given, rfl, hv⟩ := id ht
      rw [add]
      split
      · next h0 =>
        obtain rfl := (Number.isZero_whole hs.1).1 h0
        rw [Int.zero_add]
        exact .pure ht
      · exact gives_operation he ht hs
  | traced v =>
    obtain ⟨given, rfl, hv⟩ := id hs
    cases t with
    | plain b =>
      rw [add]
      split
      · next h0 =>
        obtain rfl := (Number.isZero_whole ht.1).1 h0
        rw [Int.add_zero]
        exact .pure hs
      · exact gives_operation hc hs ht
    | traced v' => exact gives_operation hc hs ht

/-- A difference, where a plain zero on the right is left out. -/
theorem gives_difference (hf : Fits (i - j)) (hs : s.Holds known g i) (ht : t.Holds known g j) :
    (sub s t).Gives g fun r g' => r.Holds known g' (i - j) := by
  have hc := Operation.computes_sub hf
  cases s with
  | plain a =>
    cases t with
    | plain b =>
      rw [sub, Number.sub_whole hs.1 ht.1]
      exact gives_number rfl hf
    | traced v =>
      obtain ⟨given, rfl, -⟩ := id ht
      exact gives_operation hc hs ht
  | traced v =>
    obtain ⟨given, rfl, -⟩ := id hs
    cases t with
    | plain b =>
      rw [sub]
      split
      · next h0 =>
        obtain rfl := (Number.isZero_whole ht.1).1 h0
        rw [Int.sub_zero]
        exact .pure hs
      · exact gives_operation hc hs ht
    | traced v' => exact gives_operation hc hs ht

theorem gives_scaled {n : Number} (hn : n.whole? = some j) (hf : Fits j) (hm : Fits (i * j))
    (hw : w.Holds given g i) : (scale w n).Gives g fun r g' => r.Holds (some given) g' (i * j) := by
  rw [scale, if_neg hw.kind, pure_bind]
  beta_reduce
  split
  · next ho =>
    obtain rfl := (Number.eq_whole_iff hn rfl).1 ho
    rw [Int.mul_one]
    exact .pure (holds_traced hw)
  · split
    · next h0 =>
      obtain rfl := (Number.isZero_whole hn).1 h0
      rw [Int.mul_zero]
      exact .pure ⟨rfl, by decide⟩
    · exact gives_operation (Operation.computes_mul hm) (holds_traced hw) ⟨hn, hf⟩

/-- A product, where a plain one is left out and a plain zero makes the product plain. -/
theorem gives_product (hf : Fits (i * j)) (hs : s.Holds known g i) (ht : t.Holds known g j) :
    (mul s t).Gives g fun r g' => r.Holds known g' (i * j) := by
  cases s with
  | plain a =>
    cases t with
    | plain b =>
      rw [mul, Number.mul_whole hs.1 ht.1]
      exact gives_number rfl hf
    | traced v =>
      obtain ⟨given, rfl, hv⟩ := ht
      rw [Int.mul_comm] at hf ⊢
      exact gives_scaled hs.1 hs.2 hf hv
  | traced v =>
    obtain ⟨given, rfl, hv⟩ := id hs
    cases t with
    | plain b => exact gives_scaled ht.1 ht.2 hf hv
    | traced v' => exact gives_operation (Operation.computes_mul hf) hs ht

/-! ## Comparisons -/

/-- A comparison of numbers, or one that is appended. -/
theorem gives_compared {f : Number → Number → Bool} {node : Scalar → Scalar → Trace Scalar}
    (p : Prop) [Decidable p]
    (hf : ∀ a b : Number, a.whole? = some i → b.whole? = some j → (f a b ↔ p))
    (hn : ∀ given, s.Holds (some given) g i → t.Holds (some given) g j →
      (node s t).Gives g fun r g' => r.Holds (some given) g' (if p then 1 else 0))
    (hs : s.Holds known g i) (ht : t.Holds known g j) :
    (compared f node s t).Gives g fun r g' => r.Holds known g' (if p then 1 else 0) := by
  cases s with
  | plain a =>
    cases t with
    | plain b =>
      refine .pure ⟨?_, Word.fits_truth p⟩
      simp only [Number.whole?, hf a b hs.1 ht.1]
    | traced v =>
      obtain ⟨given, rfl, -⟩ := id ht
      exact hn given hs ht
  | traced v =>
    obtain ⟨given, rfl, -⟩ := id hs
    exact hn given hs ht

theorem truth_cases (p : Prop) [Decidable p] :
    (if p then 1 else 0 : Int) = 0 ∨ (if p then 1 else 0 : Int) = 1 := by
  split
  · exact .inr rfl
  · exact .inl rfl

theorem gives_equality (p : Prop) [Decidable p] (ho : o.Computes true i j (if p then 1 else 0))
    (hs : s.Holds (some given) g i) (ht : t.Holds (some given) g j) :
    (equality o s t).Gives g fun r g' => r.Holds (some given) g' (if p then 1 else 0) := by
  cases s with
  | plain a =>
    cases t with
    | plain b => exact gives_comparison ho (truth_cases p) hs ht
    | traced v =>
      exact gives_comparison ⟨ho.typed, ho.exchanged rfl, fun _ => ho.word, ho.fits⟩
        (truth_cases p) ht hs
  | traced v => cases t <;> exact gives_comparison ho (truth_cases p) hs ht

/-! ## Powers and functions of one operand -/

/-- A factor of a product that fits does so, unless the other factor is 0 or -1. -/
theorem fits_of_mul (h : Fits (i * j)) (hj : 1 ≤ j ∨ j ≤ -2) : Fits i := by
  obtain ⟨hl, hh⟩ := h
  obtain hp | hn := hj
  · constructor <;> nlinarith
  · constructor <;> nlinarith

theorem fits_pow {n : Nat} (h : Fits (i ^ (n + 2))) : Fits (i ^ (n + 1)) := by
  rw [Int.pow_succ] at h
  by_cases h0 : i = 0
  · rw [h0, Int.zero_pow (by omega)]
    decide
  · by_cases ho : i = -1
    · obtain hp | hp := neg_one_pow_eq_or Int (n + 1)
      all_goals
        rw [ho, hp]
        decide
    · exact fits_of_mul h (by omega)

theorem power_small (s : Scalar) {n : Nat} (hn : n < 8) :
    power s (plain (.int n)) = match n with
      | 0 => pure (int 1)
      | n + 1 => multiplied s n := by
  have hs : ((Number.int n).whole?.bind fun i =>
      if 0 ≤ i ∧ i < 8 then some i.toNat else none) = some n := by
    change (if _ then _ else _) = _
    rw [if_pos (by omega), Int.toNat_natCast]
  delta power
  dsimp only
  rw [hs]
  cases n <;> rfl

/-- A small power is multiplied out. -/
theorem gives_multiplied (n : Nat) (hs : s.Holds known g i) (h : Fits (i ^ (n + 1))) :
    (multiplied s n).Gives g fun r g' => r.Holds known g' (i ^ (n + 1)) := by
  induction n with
  | zero =>
    rw [Int.pow_one]
    exact .pure hs
  | succ n ih =>
    refine (ih (fits_pow h)).bind fun r g₁ he hr => ?_
    rw [Int.pow_succ] at h ⊢
    exact gives_product h hr (hs.mono he)

theorem gives_negative (hf : Fits (-i)) (hs : s.Holds known g i) :
    (neg s).Gives g fun r g' => r.Holds known g' (-i) := by
  cases s with
  | plain n => exact .pure ⟨Number.neg_whole hs.1, hf⟩
  | traced w =>
    obtain ⟨given, rfl, hw⟩ := hs
    exact gives_single rfl hf (Operation.native_neg i 0) hw

/-- The absolute value, which on plain numbers is put together from products with truth
values. -/
theorem gives_abs (hf : Fits i.natAbs) (hs : s.Holds known g i) :
    (abs s).Gives g fun r g' => r.Holds known g' i.natAbs := by
  cases s with
  | plain n =>
    obtain ⟨hn, -⟩ := hs
    have hl : n.lt (.int 0) ↔ i < 0 := Number.lt_whole hn rfl
    have hle : (Number.int 0).le n ↔ 0 ≤ i := Number.le_whole rfl hn
    have hb := Number.mul_whole (a := .bool (n.lt (.int 0))) rfl (Number.neg_whole hn)
    have ho := Number.mul_whole (a := .bool ((Number.int 0).le n)) rfl hn
    simp only [hl] at hb
    simp only [hle] at ho
    rw [abs, hb, ho]
    refine gives_number (congrArg some ?_) hf
    by_cases he : i < 0
    · rw [if_pos he, if_neg (by omega)]
      omega
    · rw [if_neg he, if_pos (by omega)]
      omega
  | traced w =>
    obtain ⟨given, rfl, hw⟩ := hs
    exact gives_single rfl hf (Operation.native_abs hw.fits 0) hw

/-- The sign, which on plain numbers is a difference of truth values. -/
theorem gives_sign (hs : s.Holds known g i) :
    (sign s).Gives g fun r g' => r.Holds known g' i.sign := by
  have hf : Fits i.sign := by
    obtain h | h | h := Int.sign_trichotomy i
    all_goals
      rw [h]
      decide
  cases s with
  | plain n =>
    obtain ⟨hn, -⟩ := hs
    have hl : n.lt (.int 0) ↔ i < 0 := Number.lt_whole hn rfl
    have hgt : (Number.int 0).lt n ↔ 0 < i := Number.lt_whole rfl hn
    have hd := Number.sub_whole (a := .bool ((Number.int 0).lt n))
      (b := .bool (n.lt (.int 0))) rfl rfl
    simp only [hl, hgt] at hd
    rw [sign, hd]
    refine gives_number (congrArg some ?_) hf
    obtain he | rfl | hp := Int.lt_trichotomy i 0
    · rw [if_neg (by omega), if_pos he, Int.sign_eq_neg_one_of_neg he]
      rfl
    · rfl
    · rw [if_pos hp, if_neg (by omega), Int.sign_eq_one_of_pos hp]
      rfl
  | traced w =>
    obtain ⟨given, rfl, hw⟩ := hs
    exact gives_single rfl hf (Operation.native_sign hw.fits 0) hw

end Scalar

end Patchwork
