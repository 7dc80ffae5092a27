import Patchwork.Datum.Routines
import Patchwork.Proofs.Datum.Absorbed
import Patchwork.Proofs.Datum.Spread
import Patchwork.Proofs.Graph.Exact

/-!
# Functions of two components

Two helpers apply a function to the components of a vector and another operand. They are the same
computation on a value and on a vector of the same length, whatever the function is. On a plain
number, one of them adds it to the plain components instead.
-/

namespace Patchwork

open List

namespace Trace

/-- A trace succeeds exactly if there is something to get, and its result then is that in a
sense that may depend on the graph. -/
structure Meets {α γ : Type} (t : Trace α) (g : Graph) (R : Graph → γ → α → Prop) (o : Option γ) :
    Prop where
  gives : ∀ c, o = some c → t.Gives g fun a g' => R g' c a
  fails : o = none → t.Fails g fun _ => True

variable {α β γ δ : Type} {g : Graph} {t : Trace α} {R : Graph → γ → α → Prop} {o : Option γ}

theorem Meets.map {f : α → δ} {S : Graph → γ → δ → Prop} (h : Meets t g R o)
    (hf : ∀ g c a, R g c a → S g c (f a)) : Meets (f <$> t) g S o := by
  rw [map_eq_pure_bind]
  exact ⟨fun c hc => (h.gives c hc).bind fun a g' _ ha => .pure (hf g' c a ha),
    fun hn => (h.fails hn).bind⟩

theorem Gives.bind_meets {u : Trace δ} {p : δ → Graph → Prop} {f : δ → Trace α}
    (h : u.Gives g p) (hf : ∀ a g', g.Extends g' → p a g' → Meets (f a) g' R o) :
    Meets (u >>= f) g R o := ⟨fun c hc => h.bind fun a g' he ha => (hf a g' he ha).gives c hc,
    fun hn => h.bind_fails fun a g' he ha => (hf a g' he ha).fails hn⟩

/-- What a function meets at every element, it meets along a list. -/
theorem Meets.mapM {f : α → Trace δ} {φ : γ → Option β} {S : Graph → β → δ → Prop}
    (hR : ∀ {g g' c x}, g.Extends g' → R g c x → R g' c x)
    (hS : ∀ {g g' b d}, g.Extends g' → S g b d → S g' b d)
    (hf : ∀ g c x, R g c x → Meets (f x) g S (φ c)) {cs : List γ} {xs : List α}
    (h : Forall₂ (R g) cs xs) : Meets (xs.mapM f) g (fun g' => Forall₂ (S g')) (cs.mapM φ) := by
  induction xs generalizing cs g with
  | nil =>
    cases h
    refine ⟨fun bs hb => ?_, fun hn => (by cases hn)⟩
    cases hb
    exact .pure .nil
  | cons x xs ih =>
    obtain _ | @⟨c, _, cs, _, hx, hs⟩ := h
    have hh := hf g c x hx
    rw [mapM_cons, mapM_cons]
    cases hφ : φ c with
    | none => exact ⟨fun bs hb => (by cases hb), fun _ => (hh.fails hφ).bind⟩
    | some b =>
      have ht (g') (he : g.Extends g') := ih (hs.imp fun _ _ => hR he)
      cases hr : cs.mapM φ with
      | none =>
        refine ⟨fun bs hb => (by cases hb), fun _ => ?_⟩
        exact (hh.gives b hφ).bind_fails fun y g₁ he _ => ((ht g₁ he).fails hr).bind
      | some bs =>
        refine ⟨fun bs' hb' => ?_, fun hn => (by cases hn)⟩
        cases hb'
        refine (hh.gives b hφ).bind fun y g₁ he hy => ?_
        refine ((ht g₁ he).gives bs hr).bind fun ys g₂ he' hys => ?_
        exact .pure (.cons (hS he' hy) hys)

end Trace

namespace Datum

open Trace

/-- What data are worth while they are traced. A plain number is worth the same everywhere, and
what a trace appends changes nothing. -/
structure Evaluation (β : Type) where
  number : Number → β
  Worth : Graph → β → Datum → Prop
  mono : ∀ {g g' x d}, g.Extends g' → Worth g x d → Worth g' x d
  plain : ∀ g n, Worth g (number n) (plain n)

namespace Evaluation

variable {β : Type} (E : Evaluation β)

def Components (g : Graph) (zs : List β) (d : Datum) : Prop :=
  ∃ ds, d = vector ds ∧ List.Forall₂ (E.Worth g) zs ds

/-- What becomes of a component and a plain number, which is worth `y`, if plain components are
added to it. -/
def orAdded (φ : β → β → Option β) (n : Number) (y : β) : Scalar × β → Option β
  | (.plain m, _) => (m.add n).toOption.map E.number
  | (.traced _, x) => φ x y

/-- A function computes `φ` at a pair of data, from a graph on. -/
def ComputesAt (call : Caller) (f : Datum) (φ : β → β → Option β) (g : Graph) (c : β × β)
    (d : Datum × Datum) : Prop :=
  ∀ g', g.Extends g' → Meets (call f [d.1, d.2]) g' E.Worth (φ c.1 c.2)

/-- A function computes `φ` at a component that is traced and every value that is worth `y`. -/
def ComputesTraced (call : Caller) (f : Datum) (φ : β → β → Option β) (y : β) (g : Graph) (x : β)
    (s : Scalar) : Prop :=
  s.isTraced = true → ∀ g' w, g.Extends g' → E.Worth g' y (traced w) →
    E.ComputesAt call f φ g' (x, y) (scalar s, traced w)

variable {E} {g g' : Graph} {call : Caller} {f : Datum} {φ : β → β → Option β} {xs : List Scalar}
  {vs : List β} {y : β}

theorem ComputesAt.mono {c : β × β} {d : Datum × Datum} (he : g.Extends g')
    (h : E.ComputesAt call f φ g c d) : E.ComputesAt call f φ g' c d :=
  fun _ he' => h _ (he.trans he')

theorem ComputesTraced.mono {x : β} {s : Scalar} (he : g.Extends g')
    (h : E.ComputesTraced call f φ y g x s) : E.ComputesTraced call f φ y g' x s :=
  fun hs _ w he' => h hs _ w (he.trans he')

theorem meets_components {ι κ : Type} {run : ι → Trace Datum} {ψ : κ → Option β}
    {R : Graph → κ → ι → Prop} (hR : ∀ {g g' c i}, g.Extends g' → R g c i → R g' c i)
    (hr : ∀ g c i, R g c i → Meets (run i) g E.Worth (ψ c)) {cs : List κ} {is : List ι}
    (h : Forall₂ (R g) cs is) : Meets (vector <$> is.mapM run) g E.Components (cs.mapM ψ) :=
  (Meets.mapM (R := R) (S := E.Worth) hR E.mono hr h).map fun _ _ ds hd => ⟨ds, rfl, hd⟩

theorem onVectors_vector {ys : List Datum} {ws : List β}
    (h : Forall₂ (E.ComputesAt call f φ g) (vs.zip ws) ((xs.map scalar).zip ys)) :
    Meets (onVectors (fun a b => call f [a, b]) (vector (xs.map scalar)) (vector ys)) g
      E.Components ((vs.zip ws).mapM fun p => φ p.1 p.2) :=
  meets_components (R := E.ComputesAt call f φ) .mono (fun g _ _ hd => hd g (.refl g)) h

theorem onVectors_scalar {s : Scalar}
    (h : Forall₂ (fun x t => E.ComputesAt call f φ g (x, y) (scalar t, scalar s)) vs xs) :
    Meets (onVectors (fun a b => call f [a, b]) (vector (xs.map scalar)) (scalar s)) g
      E.Components (vs.mapM (φ · y)) :=
  meets_components (R := fun g x d => E.ComputesAt call f φ g (x, y) (d, scalar s)) .mono
    (fun g _ _ hd => hd g (.refl g)) (forall₂_map_right_iff.2 h)

theorem meets_orAdded {n : Number} {w : Value} (hw : E.Worth g y (traced w)) {s : Scalar} {x : β}
    (h : E.ComputesTraced call f φ y g x s) :
    Meets (if s.isTraced then call f [scalar s, traced w]
      else binary .add (scalar s) (Datum.plain n)) g E.Worth (E.orAdded φ n y (s, x)) := by
  cases s with
  | traced v => exact h rfl g w (.refl g) hw g (.refl g)
  | plain m =>
    change Meets (scalar <$> Scalar.plain <$> Fault.lift (m.add n)) g E.Worth
      ((m.add n).toOption.map E.number)
    cases m.add n with
    | error e => exact ⟨fun c hc => (by cases hc), fun _ => ⟨e, rfl, trivial⟩⟩
    | ok r =>
      refine ⟨fun c hc => ?_, fun hn => (by cases hn)⟩
      cases hc
      exact .pure (E.plain g r)

theorem mapPairs_plain {n : Number}
    (hn : (Value.constant n).Gives g fun w g' => E.Worth g' y (traced w))
    (h : Forall₂ (E.ComputesTraced call f φ y g) vs xs) :
    Meets (mapPairs call (vector (xs.map scalar)) (Datum.plain n) f) g
      E.Components ((xs.zip vs).mapM (E.orAdded φ n y)) := by
  have hz : Forall₂ (fun (p : Scalar × β) s => s = p.1 ∧ E.ComputesTraced call f φ y g p.2 s)
      (xs.zip vs) xs := (forall₂_zip_right (forall₂_refl xs) h.flip).flip
  have hr : mapPairs call (vector (xs.map scalar)) (Datum.plain n) f =
      Value.constant n >>= fun w => vector <$> (xs.map scalar).mapM fun d =>
        if d.isTraced then call f [d, traced w] else binary .add d (Datum.plain n) := rfl
  rw [hr]
  refine hn.bind_meets fun w g' he hw => ?_
  rw [mapM_map]
  refine meets_components (R := fun g p s => s = p.1 ∧ E.ComputesTraced call f φ y g p.2 s ∧
    E.Worth g y (traced w)) ?_ ?_ (hz.imp fun p s hp => ⟨hp.1, hp.2.mono he, hw⟩)
  · exact fun he hp => ⟨hp.1, hp.2.1.mono he, E.mono he hp.2.2⟩
  · rintro g p _ ⟨rfl, hp, hw⟩
    exact meets_orAdded hw hp

/-- **Two helpers for functions of two components.** On vectors of one length and on a value they
are the same computation, whatever the function does. Vectors of other lengths are refused by one
and cut by the other. Where the function computes something at the pairs that meet, so does the
helper along the vector. On a plain number, one of them adds the plain components to it instead. -/
theorem elementwise_helpers (E : Evaluation β) (call : Caller) (f : Datum) (φ : β → β → Option β)
    (g : Graph) (xs : List Scalar) (vs : List β) :
    (∀ ys, mapPairs call (vector (xs.map scalar)) (vector ys) f =
      if xs.length = ys.length then
        onVectors (fun a b => call f [a, b]) (vector (xs.map scalar)) (vector ys)
      else throw (.violated .unstated)) ∧
    (∀ w, mapPairs call (vector (xs.map scalar)) (traced w) f =
      onVectors (fun a b => call f [a, b]) (vector (xs.map scalar)) (traced w)) ∧
    (∀ ys ws, List.Forall₂ (E.ComputesAt call f φ g) (vs.zip ws) ((xs.map scalar).zip ys) →
      Meets (onVectors (fun a b => call f [a, b]) (vector (xs.map scalar)) (vector ys)) g
        E.Components ((vs.zip ws).mapM fun p => φ p.1 p.2)) ∧
    (∀ s y,
      List.Forall₂ (fun x t => E.ComputesAt call f φ g (x, y) (scalar t, scalar s)) vs xs →
      Meets (onVectors (fun a b => call f [a, b]) (vector (xs.map scalar)) (scalar s)) g
        E.Components (vs.mapM (φ · y))) ∧
    ∀ n y, (Value.constant n).Gives g (fun w g' => E.Worth g' y (traced w)) →
      List.Forall₂ (E.ComputesTraced call f φ y g) vs xs →
      Meets (mapPairs call (vector (xs.map scalar)) (Datum.plain n) f) g
        E.Components ((xs.zip vs).mapM (E.orAdded φ n y)) := by
  refine ⟨fun ys => ?_, fun w => rfl, fun ys ws => onVectors_vector, fun s y => onVectors_scalar,
    fun n y => mapPairs_plain⟩
  change vector <$> Vector.zipWith (fun a b => call f [a, b]) (xs.map scalar) ys = _
  rw [Vector.zipWith, List.length_map]
  split_ifs <;> rfl

/-- Exact evaluation, in which a plain number with a fraction counts as zero. -/
def exactly : Evaluation Int where
  number n := n.whole?.getD 0
  Worth g i d := (∃ n, d = Datum.plain n ∧ n.whole?.getD 0 = i) ∨ ∃ w, d = traced w ∧ w.Amounts g i
  mono := by
    rintro g g' i d hext (h | ⟨w, rfl, hw⟩)
    · exact .inl h
    · exact .inr ⟨w, rfl, hw.mono hext⟩
  plain g n := .inl ⟨n, rfl, rfl⟩

def times : Caller := fun _ ds => binary .mul (ds.headD absent) (ds.getLastD absent)

theorem computesAt_times {s t : Scalar} {i j : Int} (hs : s.Amounts g i) (ht : t.Amounts g j) :
    exactly.ComputesAt times absent (fun x y => some (x * y)) g (i, j) (scalar s, scalar t) := by
  refine fun g' he => ⟨fun c hc => ?_, fun hn => (by cases hn)⟩
  cases hc
  have hm := Scalar.amounts_mul (hs.mono he) (ht.mono he)
  change (scalar <$> Scalar.binary .mul s t).Gives g' _
  rw [map_eq_pure_bind]
  refine hm.bind fun u g'' _ hu => .pure ?_
  cases hu with
  | plain => exact .inl ⟨_, rfl, rfl⟩
  | traced hw => exact .inr ⟨_, rfl, hw⟩

/-- Three and a constant two times five: one of the helpers adds the three. -/
theorem helpers_multiply :
    Meets (mapPairs times (vector [int 3, traced two]) (int 5) absent) justTwo exactly.Components
      (some [8, 10]) ∧
    Meets (onVectors (fun a b => times absent [a, b]) (vector [int 3, traced two]) (int 5)) justTwo
      exactly.Components (some [15, 10]) := by
  have ht : two.Amounts justTwo 2 := ⟨by decide, Graph.exact_constant .empty 2 false, rfl⟩
  obtain ⟨-, -, -, hs, hp⟩ := elementwise_helpers exactly times absent
    (fun x y => some (x * y)) justTwo [.int 3, .traced two] [3, 2]
  refine ⟨hp (.int 5) 5 ?_ (.cons (fun h => (by cases h)) (.cons ?_ .nil)),
    hs (.int 5) 5 (.cons (computesAt_times (.plain 3) (.plain 5))
      (.cons (computesAt_times (.traced ht) (.plain 5)) .nil))⟩
  · exact (Value.gives_constant justTwo 5).imp fun w g' _ hw => .inr ⟨w, rfl, hw⟩
  · rintro - g' w he (⟨n, hn, -⟩ | ⟨_, ⟨⟩, hw⟩)
    · cases hn
    · exact computesAt_times (.traced (ht.mono he)) (.traced hw)

/-- Three times five is eight for one of the helpers, and one of them cuts a vector of two. -/
theorem helpers_differ :
    (mapPairs times (vector [int 3]) (int 5) absent).Gives .empty (fun d _ => d = vector [int 8]) ∧
    onVectors (fun a b => times absent [a, b]) (vector [int 3]) (int 5) .empty =
      .ok (vector [int 15], .empty) ∧
    mapPairs times (vector [int 3]) (vector [int 5, int 7]) absent .empty =
      .error (.violated .unstated) ∧
    onVectors (fun a b => times absent [a, b]) (vector [int 3]) (vector [int 5, int 7]) .empty =
      .ok (vector [int 15], .empty) :=
  ⟨⟨_, _, rfl, Graph.extends_push _ _, rfl⟩, rfl, rfl, rfl⟩

end Evaluation

end Datum

end Patchwork
