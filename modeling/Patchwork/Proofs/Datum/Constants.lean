import Patchwork.Proofs.Datum.Absorbed

/-!
# Constants shared between elements

When a tensor of values meets a tensor of plain numbers, a number takes the constant of an earlier
one that compares equal, whatever the types of the two. So an element has the constant operand and
the type of its own number if no earlier number is equal to it, and else those of its stand-in.
-/

namespace Patchwork

open List

/-- The node that arithmetic on two values appends, and whether its operands may be exchanged. -/
def Operator.node? : Operator → Option (Operation × Bool)
  | .add => some (.add, true)
  | .sub => some (.sub, false)
  | .mul => some (.mul, true)
  | .trueDiv => some (.div, false)
  | _ => none

namespace Number

/-- Whether two numbers of one operation share a constant: equal numbers do, and so do the doubles
that differ from themselves. -/
def shares (m n : Number) : Bool := m.eq n || ((Datum.plain m).isNaN && (Datum.plain n).isNaN)

/-- The numbers that stand in for those of a list, if constants of some numbers were made. -/
def standIns (made : List Number) : List Number → List Number
  | [] => []
  | n :: ns => match made.find? (·.shares n) with
    | some m => m :: standIns made ns
    | none => n :: standIns (n :: made) ns

theorem standIns_cons (made : List Number) (n : Number) (ns : List Number) :
    (∃ m ∈ made, m.shares n ∧ standIns made (n :: ns) = m :: standIns made ns) ∨
      (∀ m ∈ made, m.shares n = false) ∧
        standIns made (n :: ns) = n :: standIns (n :: made) ns := by
  rw [standIns]
  split
  case _ m hm =>
    exact .inl ⟨m, mem_of_find?_eq_some hm, by simpa using find?_some hm, rfl⟩
  case _ hn => exact .inr ⟨by simpa using hn, rfl⟩

/-- A number stands in for itself, or for an equal number after it. -/
theorem standIns_spec {made ns : List Number} {i : Nat} {m n : Number}
    (hm : (standIns made ns)[i]? = some m) (hn : ns[i]? = some n) :
    (m = n ∨ (m ∈ made ∨ m ∈ ns.take i) ∧ m.shares n) ∧
      ((∀ k, k ∈ made ∨ k ∈ ns.take i → k.shares n = false) → m = n) := by
  induction ns generalizing made i with
  | nil => cases hn
  | cons n' ns ih =>
    obtain ⟨m', he, hs, heq⟩ | ⟨-, heq⟩ := standIns_cons made n' ns
    · rw [heq] at hm
      cases i with
      | zero =>
        cases hm
        cases hn
        exact ⟨.inr ⟨.inl he, hs⟩, fun h => by cases hs.symm.trans (h m (.inl he))⟩
      | succ i =>
        obtain ⟨ho, hf⟩ := ih hm hn
        rw [take_succ_cons]
        exact ⟨ho.imp id (.imp (.imp id (mem_cons_of_mem n')) id),
          fun h => hf fun k hk => h k (hk.imp id (mem_cons_of_mem n'))⟩
    · rw [heq] at hm
      cases i with
      | zero =>
        cases hm
        cases hn
        exact ⟨.inl rfl, fun _ => rfl⟩
      | succ i =>
        have hp : ∀ k, (k ∈ n' :: made ∨ k ∈ ns.take i) ↔
            (k ∈ made ∨ k ∈ (n' :: ns).take (i + 1)) := by
          intro k
          rw [take_succ_cons, mem_cons, mem_cons]
          tauto
        simpa only [hp] using ih hm hn

end Number

namespace Datum

variable {g g' : Graph} {o : Operator} {op : Operation} {c : Bool}

/-- An element is an operation on a value and the constant of a number: its type is that of the
operation on the types of the two. -/
def Computes (op : Operation) (c : Bool) (g : Graph) (v : Value) (n : Number) (x : Value) : Prop :=
  ∃ (w : Value) (ns : List Net), g.node w.net.source = .constant n false ∧
    ns.Perm [v.net, w.net] ∧ (c = false → ns = [v.net, w.net]) ∧
    g.node x.net.source = .apply op ns c ∧
    op.result? [v.kind.cell, n.cell] = some x.net.cell ∧ x.kind = .ofCell x.net.cell

theorem Computes.mono {v x : Value} {n : Number} (h : Computes op c g v n x) (he : g.Extends g') :
    Computes op c g' v n x := by
  obtain ⟨w, ns, hw, hp, hs, hx, hr⟩ := h
  have ho : ∀ k node, g.node k = node → node ≠ .blank → g'.node k = node := by
    intro k node hk hn
    rw [he.node k (Graph.lt_size_of_ne_blank (hk ▸ hn)), hk]
  exact ⟨w, ns, ho _ _ hw nofun, hp, hs, ho _ _ hx nofun, hr⟩

theorem node_of_names {w : Value} {n : Number} (h : g.Names w n) :
    g.node w.net.source = .constant n false ∧ w.kind.cell = n.cell := by
  obtain ⟨g₀, g₁, hm, he⟩ := h
  cases hm
  refine ⟨?_, ?_⟩
  · rw [he.node]
    · exact Graph.node_push_size g₀ _
    · simp
  · cases n <;> rfl

/-- Arithmetic on a value and a constant computes an element. -/
theorem gives_computes (ho : o.node? = some (op, c)) (v : Value) {w : Value} {n : Number}
    (hw : g.Names w n) :
    (Scalar.binary o (.traced v) (.traced w)).Gives g fun s g' => ∃ x, s = .traced x ∧
      Computes op c g' v n x := by
  have hn : Scalar.binary o (.traced v) (.traced w) =
      Scalar.traced <$> Trace.apply op [v, w] c := by
    cases o <;> cases ho <;> rfl
  -- the type of the result does not depend on the order of the operands
  have hl : ∀ a b : Cell, op.result? [a, b] = op.result? [b, a] ∧ (op.result? [a, b]).isSome := by
    cases o <;> cases ho <;> intro a b <;> cases a <;> cases b <;> decide
  have hr : ∀ ws : List Value, ws.Perm [v, w] →
      op.result? (ws.map fun w => w.kind.cell) = op.result? [v.kind.cell, w.kind.cell] := by
    intro ws hs
    obtain ⟨a, b, rfl⟩ := length_eq_two.1 hs.length_eq
    obtain ⟨rfl, rfl⟩ | ⟨rfl, rfl⟩ := Graph.pair_of_perm hs
    · rfl
    · exact (hl _ _).1
  rw [hn, map_eq_pure_bind]
  refine (Trace.gives_node op [v, w] c fun ws hs => hr ws hs ▸ (hl _ _).2).bind ?_
  rintro x g' he ⟨ws, cell, hp, hm, hcl, rfl, rfl⟩
  obtain ⟨ht, hk⟩ := node_of_names (hw.mono he)
  refine .pure ⟨_, rfl, w, ws.map Value.net, ht, hp.map _, fun hc => ?_,
    Graph.node_push_size g _, ?_, rfl⟩
  · rw [hm hc]
    rfl
  · rw [← hk, ← hr ws hp]
    exact hcl

/-- Constants that were made for numbers. -/
def madeOf (made : List (Number × Value)) : Shared := made.map fun e => (plain e.1, traced e.2)

/-- The constant of the stand-in is found, or it is made. -/
theorem gives_standIn {made : List (Number × Value)} (hm : ∀ e ∈ made, g.Names e.2 e.1)
    (v : Value) (n : Number) (ns : List Number) :
    (shared (traced v) (plain n) (madeOf made)).Gives g fun r g' =>
      ∃ (m : Number) (w : Value) (made' : List (Number × Value)), r = (traced w, madeOf made') ∧
        g'.Names w m ∧ (∀ e ∈ made', g'.Names e.2 e.1) ∧
        Number.standIns (made.map Prod.fst) (n :: ns) =
          m :: Number.standIns (made'.map Prod.fst) ns := by
  have hi : (madeOf made).find? (fun entry => same g entry.1 (plain n) ||
      (entry.1.isNaN && (plain n).isNaN)) =
      (made.find? (·.1.shares n)).map fun e => (plain e.1, traced e.2) := find?_map ..
  have hs : (made.map Prod.fst).find? (·.shares n) = (made.find? (·.1.shares n)).map Prod.fst :=
    find?_map ..
  refine Trace.Gives.get_bind ?_
  rw [Number.standIns, hs, hi]
  cases hf : made.find? (·.1.shares n) with
  | some e =>
    exact .pure ⟨e.1, e.2, made, rfl, hm e (mem_of_find?_eq_some hf), hm, rfl⟩
  | none =>
    refine Trace.Gives.bind (p := fun d g' => ∃ w, d = traced w ∧ g'.Names w n) ?_ ?_
    · exact ⟨_, _, rfl, Graph.extends_push .., _, rfl, _, _, rfl, .refl _⟩
    · rintro _ g' hx ⟨w, rfl, hw⟩
      exact .pure ⟨n, w, (n, w) :: made, rfl, hw,
        forall_mem_cons.2 ⟨hw, fun e he => (hm e he).mono hx⟩, rfl⟩

/-- The elements of a tensor of values and a tensor of numbers. -/
theorem gives_zipShared (ho : o.node? = some (op, c)) {f : Datum → Datum → Trace Datum}
    (hf : ∀ a b, f (scalar a) (scalar b) = scalar <$> Scalar.binary o a b)
    {vs : List Value} {ns : List Number} (hl : ns.length = vs.length)
    (made : List (Number × Value)) (hm : ∀ e ∈ made, g.Names e.2 e.1) :
    (zipShared f ((vs.map traced).zip (ns.map plain)) (madeOf made)).Gives g fun ds g' =>
        ∃ xs : List Value, ds = xs.map traced ∧ xs.length = vs.length ∧
          Forall₂ (fun (p : Value × Number) x => Computes op c g' p.1 p.2 x)
            (vs.zip (Number.standIns (made.map Prod.fst) ns)) xs := by
  induction vs generalizing ns g made with
  | nil =>
    cases length_eq_zero_iff.1 hl
    exact .pure ⟨[], rfl, rfl, .nil⟩
  | cons v vs ih =>
    obtain _ | ⟨n, ns⟩ := ns
    · cases hl
    refine (gives_standIn hm v n ns).bind ?_
    rintro _ g₁ ht ⟨m, w, made', rfl, hw, hm', heq⟩
    rw [heq]
    dsimp only
    change Trace.Gives (f (scalar (.traced v)) (scalar (.traced w)) >>= _) _ _
    rw [hf, map_eq_pure_bind, bind_assoc]
    refine (gives_computes ho v hw).bind ?_
    rintro _ g₂ ht₂ ⟨x, rfl, hx⟩
    rw [pure_bind]
    refine (ih (by simpa using hl) made' fun e he => (hm' e he).mono ht₂).bind ?_
    rintro _ g₃ ht₃ ⟨xs, rfl, hs, ha⟩
    exact .pure ⟨x :: xs, rfl, congrArg Nat.succ hs, .cons (hx.mono ht₃) ha⟩

/-- **Sharing constants changes types.** A tensor of values meets a tensor of as many plain numbers:
every element is the operation on its value and on the constant of the number that stands in for its
number. This is the number itself if no earlier one is equal to it, and else an earlier one that is,
whose type may be another. -/
theorem elements_of_standIns (s : Shape) (vs : List Value) (ns : List Number)
    (ho : o.node? = some (op, c)) (hs : s ≠ []) (hvs : vs ≠ []) (hlength : ns.length = vs.length)
    (truths truths' : List Nat) (g : Graph) :
    (binary o (tensor s (vs.map traced) truths) (tensor s (ns.map plain) truths')).Gives g
      (fun d g' => ∃ xs : List Value, d = tensor s (xs.map traced) truths ∧
        xs.length = vs.length ∧
        List.Forall₂ (fun (p : Value × Number) x => Computes op c g' p.1 p.2 x)
          (vs.zip (Number.standIns [] ns)) xs) ∧
    ∀ (i : Nat) (m n : Number), (Number.standIns [] ns)[i]? = some m → ns[i]? = some n →
      (m = n ∨ m ∈ ns.take i ∧ m.shares n = true) ∧
        ((∀ k ∈ ns.take i, k.shares n = false) → m = n) := by
  constructor
  · have hr : o.onArrays = true := by cases o <;> first | rfl | cases ho
    have ha : (⟨s, vs.map traced⟩ : Tensor Datum).aligned ⟨s, ns.map plain⟩ =
        .ok (s, (vs.map traced).zip (ns.map plain)) := by
      rw [Tensor.aligned, if_pos rfl]
      rfl
    rw [binary_tensor hr]
    change Trace.Gives (Fault.lift (Tensor.aligned _ _) >>= fun r =>
      zipShared _ r.2 [] >>= fun xs => rebuilt xs r.1 (if r.1 = s then truths else [])) g _
    rw [ha, Trace.lift_ok_bind]
    refine (gives_zipShared ho (dyadicTo_scalar _ o) hlength [] (by simp)).bind ?_
    rintro _ g' - ⟨xs, rfl, hx, hl⟩
    have hb := build_scalars (xs.map .traced) s
    have he : xs.map Scalar.traced ≠ [] := by
      rwa [Ne, map_eq_nil_iff, ← length_eq_zero_iff, hx, length_eq_zero_iff]
    rw [if_neg hs, if_neg he, map_map] at hb
    change Trace.Gives (rebuilt (xs.map (scalar ∘ .traced)) s _) g' _
    rw [if_pos rfl, rebuilt, hb]
    exact .pure ⟨xs, rfl, hx, hl⟩
  · intro i m n hm hn
    simpa using Number.standIns_spec hm hn

/-- Two minus one, true and three: true takes the constant of one. -/
theorem two_minus_standIns :
    (binary .sub (tensor [3] [traced two, traced two, traced two] [])
      (tensor [3] [int 1, plain (.bool true), int 3] [])).Gives justTwo fun d g' =>
        ∃ xs : List Value, d = tensor [3] (xs.map traced) [] ∧ xs.length = 3 ∧
          List.Forall₂ (fun (p : Value × Number) x => Computes .sub false g' p.1 p.2 x)
            [(two, .int 1), (two, .int 1), (two, .int 3)] xs :=
  (elements_of_standIns [3] [two, two, two] [.int 1, .bool true, .int 3] (o := .sub) rfl
    (by simp) (by simp) rfl [] [] justTwo).1

/-- Two minus one and two minus the double one are both integers over one constant, although the
difference of an integer and a double is a double. -/
theorem double_as_integer :
    (∃ x y g, binary .sub (tensor [2] [traced two, traced two] [])
        (tensor [2] [int 1, plain (.float 1.0)] []) justTwo =
          .ok (tensor [2] [traced x, traced y] [], g) ∧
      y.kind = .int ∧ g.node y.net.source = .apply .sub [two.net, ⟨.int, 1⟩] false ∧
      g.node 1 = .constant (.int 1) false) ∧
    Operation.sub.result? [two.kind.cell, (Number.float 1.0).cell] = some .float := by
  refine ⟨⟨_, _, _, rfl, ?_⟩, rfl⟩
  exact ⟨rfl, rfl, rfl⟩

end Datum

end Patchwork
