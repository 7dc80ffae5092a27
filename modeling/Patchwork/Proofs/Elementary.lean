import Patchwork.Proofs.Datum.Spread
import Patchwork.Proofs.Gradient.Scalars

/-!
# Elementary functions traced and untraced

An expression of elementary functions can be evaluated on a plain number, where the mathematical
library computes, or on a traced value, where it appends a node for every function. Whatever the
functions are, both agree as long as every node names the function that the library is called for.
The arc cosine is the exception: the library is called for the arc sine of a plain number. So the
evaluations agree on expressions that apply the arc cosine to no part with the input in it.

On a vector or a tensor every element is what the expression gives at that element.
-/

namespace Patchwork

open List

variable {f : Elementary}

variable {K : Type*} {g g' : Graph} {r : Reading K}

/-! ## Libraries and readings -/

/-- A library in which every function has a value everywhere. -/
structure Library.IsTotal [Library] : Prop where
  function : ∀ f n, ∃ y, Library.function f n = .ok y
  angle : ∀ m n, ∃ y, Library.angle m n = .ok y

/-- A reading follows the library: it reads an operation as the library function of the same
name, wherever this has a value. -/
structure Reading.Follows [Library] (r : Reading K) : Prop where
  function : ∀ f n y, Library.function f n = .ok y →
    r.operation f.operation [r.number n] = r.number (.float y)
  angle : ∀ m n y, Library.angle m n = .ok y →
    r.operation .atan2 [r.number m, r.number n] = r.number (.float y)

theorem Elementary.called_of_ne (h : f ≠ acos) : f.called = f := by
  cases f with
  | acos => exact absurd rfl h
  | _ => rfl

@[simp] theorem Elementary.called_called (f : Elementary) : f.called.called = f.called := by
  cases f <;> rfl

/-! ## Scalars with a content -/

namespace Scalar

/-- A scalar is worth a number: it is that number, or a traced value with that content. -/
def Worth (r : Reading K) (g : Graph) (n : Number) : Scalar → Prop
  | plain m => m = n
  | traced w => w.net.source < g.size ∧ g.read r w.net.source = r.number n

variable {n p : Number} {s t : Scalar}

theorem Worth.inside (h : s.Worth r g n) : s.Inside g := by
  cases s with
  | plain m => trivial
  | traced w => exact h.1

theorem Worth.read_eq (h : s.Worth r g n) : s.read g r = r.number n := by
  cases s with
  | plain m => exact congrArg r.number h
  | traced w => exact h.2

theorem Worth.mono (he : g.Extends g') (h : s.Worth r g n) : s.Worth r g' n := by
  cases s with
  | plain m => exact h
  | traced w => exact ⟨Nat.lt_of_lt_of_le h.1 he.size, (he.read r h.1).trans h.2⟩

theorem worth_of_traced (ht : s.isTraced) (hi : s.Inside g)
    (hr : s.read g r = r.number n) : s.Worth r g n := by
  cases s with
  | plain m => cases ht
  | traced w => exact ⟨hi, hr⟩

/-- An appended node is worth what its operation is read as at the numbers that its operands are
worth. -/
theorem gives_node_worth {o : Operation} (ns : List Number) {ss : List Scalar}
    (hss : Forall₂ (fun n s => s.Worth r g n) ns ss)
    (hr : ∀ cells : List Cell, cells.length = ss.length → (o.result? cells).isSome)
    (hp : r.operation o (ns.map r.number) = r.number p) :
    (operate o ss).Gives g fun u g' => u.Worth r g' p ∧ u.isTraced := by
  have hi : ∀ s ∈ ss, s.Inside g := by
    have hb : Forall₂ (fun s n => s.Inside g ∧ s.Worth r g n) ss ns :=
      hss.flip.imp fun _ _ hs => ⟨Worth.inside hs, hs⟩
    exact ((forall₂_and_left _ _).1 hb).1
  have he : ns.map r.number = ss.map (read g r) := by
    rw [← forall₂_eq_eq_eq, forall₂_map_left_iff, forall₂_map_right_iff]
    exact hss.imp fun n s hs => hs.read_eq.symm
  refine (gives_operate (K := K) false hi hr).imp ?_
  rintro u g' - ⟨ht, hi, hd⟩
  obtain ⟨xs, -, hx, hu⟩ := hd r
  refine ⟨worth_of_traced ht hi ?_, ht⟩
  rw [hu, hx rfl, ← he, hp]

variable [Library]

/-- An elementary function of a scalar is worth what it is at the number. -/
theorem gives_ofNumber (hr : r.Follows) (hs : s.Worth r g n)
    (hp : f.ofNumber n = .ok p) (hf : f ≠ .acos) :
    (elementary f s).Gives g fun u g' => u.Worth r g' p ∧ u.isTraced = s.isTraced := by
  cases s with
  | plain m =>
    obtain rfl : m = n := hs
    rw [elementary, hp]
    exact .pure ⟨rfl, rfl⟩
  | traced w =>
    rw [Elementary.ofNumber, Elementary.called_of_ne hf] at hp
    obtain ⟨y, hy, hp⟩ := bind_ok hp
    cases hp
    refine gives_node_worth [n] (.cons hs .nil) (fun cells hc => ?_) (hr.function f n y hy)
    obtain ⟨c, rfl⟩ := length_eq_one_iff.1 hc
    cases f <;> rfl

/-- The angle of a point whose coordinates are worth numbers. -/
theorem gives_atan2 (hr : r.Follows) {m : Number} (hs : s.Worth r g m) (ht : t.Worth r g n)
    (hp : m.atan2 n = .ok p) :
    (pairwise .atan2 s t).Gives g fun u g' =>
      u.Worth r g' p ∧ u.isTraced = (s.isTraced || t.isTraced) := by
  have hn : (operate .atan2 [s, t]).Gives g fun u g' => u.Worth r g' p ∧ u.isTraced := by
    obtain ⟨y, hy, hp⟩ := bind_ok hp
    cases hp
    refine gives_node_worth [m, n] (.cons hs (.cons ht .nil)) (fun cells hc => ?_)
      (hr.angle m n y hy)
    obtain ⟨c, c', rfl⟩ := length_eq_two.1 hc
    rfl
  cases s with
  | plain a =>
    cases t with
    | plain b =>
      obtain rfl : a = m := hs
      obtain rfl : b = n := ht
      rw [pairwise, either, hp]
      exact .pure ⟨rfl, rfl⟩
    | traced w => exact hn
  | traced v => cases t <;> exact hn

end Scalar

/-! ## Expressions -/

theorem Datum.map_arithmetic (p : Except Fault Number) :
    Datum.scalar <$> Scalar.arithmetic p = Datum.plain <$> Fault.lift p := by
  cases p <;> rfl

namespace Elementary

/-- An expression of elementary functions in one input. -/
inductive Tree where
  | input
  | literal (x : Float)
  | function (f : Elementary) (a : Tree)
  | angle (a b : Tree)

namespace Tree

def mentions : Tree → Bool
  | input => true
  | literal _ => false
  | function _ a => a.mentions
  | angle a b => a.mentions || b.mentions

/-- The arc cosine is applied to no part with the input in it. -/
def Faithful : Tree → Prop
  | input => True
  | literal _ => True
  | function f a => a.Faithful ∧ (f = acos → a.mentions = false)
  | angle a b => a.Faithful ∧ b.Faithful

/-- The expression in which every function is the one that the library is called for. -/
def arcsined : Tree → Tree
  | input => input
  | literal x => literal x
  | function f a => function f.called a.arcsined
  | angle a b => angle a.arcsined b.arcsined

variable [Library]

def run (d : Datum) : Tree → Trace Datum
  | input => pure d
  | literal x => pure (.plain (.float x))
  | function f a => do Datum.elementary f (← a.run d)
  | angle a b => do Datum.dyadic (.pairwise .atan2) (← a.run d) (← b.run d)

def value (n : Number) : Tree → Except Fault Number
  | input => pure n
  | literal x => pure (.float x)
  | function f a => do f.ofNumber (← a.value n)
  | angle a b => do Number.atan2 (← a.value n) (← b.value n)

def Defined (t : Tree) (n : Number) : Prop := ∃ p, t.run (.plain n) = pure (.plain p)

/-- An expression on a plain number appends nothing. -/
theorem run_plain (t : Tree) (n : Number) :
    t.run (.plain n) = Datum.plain <$> Fault.lift (t.value n) := by
  induction t with
  | input => rfl
  | literal x => rfl
  | function f a ih =>
    rw [run, value, ih]
    cases a.value n with
    | error e => rfl
    | ok m => exact Datum.map_arithmetic (f.ofNumber m)
  | angle a b iha ihb =>
    rw [run, value, iha, ihb]
    cases a.value n with
    | error e => rfl
    | ok m =>
      cases b.value n with
      | error e => rfl
      | ok m' => exact Datum.map_arithmetic (m.atan2 m')

theorem run_plain_iff {t : Tree} {n p : Number} :
    t.run (.plain n) = pure (.plain p) ↔ t.value n = .ok p := by
  rw [run_plain]
  cases t.value n with
  | error e =>
    refine iff_of_false (fun h => ?_) nofun
    cases congrFun h default
  | ok m =>
    constructor
    · intro h
      cases congrFun h default
      rfl
    · intro h
      cases h
      rfl

theorem defined_iff {t : Tree} {n : Number} : t.Defined n ↔ ∃ p, t.value n = .ok p :=
  exists_congr fun _ => run_plain_iff

/-- Without the input an expression is the same on all data. -/
theorem run_of_not_mentions {t : Tree} (h : t.mentions = false) (d d' : Datum) :
    t.run d = t.run d' := by
  induction t with
  | input => cases h
  | literal x => rfl
  | function f a ih => rw [run, run, ih h]
  | angle a b iha ihb =>
    obtain ⟨ha, hb⟩ := Bool.or_eq_false_iff.1 h
    rw [run, run, iha ha, ihb hb]

/-- Plain evaluation computes the functions that the library is called for. -/
theorem value_arcsined (t : Tree) (n : Number) : t.arcsined.value n = t.value n := by
  induction t with
  | input => rfl
  | literal x => rfl
  | function f a ih => simp only [arcsined, value, ofNumber, called_called, ih]
  | angle a b iha ihb => simp only [arcsined, value, iha, ihb]

/-- In a total library every expression has a value. -/
theorem exists_value (h : Library.IsTotal) (t : Tree) (n : Number) : ∃ p, t.value n = .ok p := by
  induction t with
  | input => exact ⟨n, rfl⟩
  | literal x => exact ⟨_, rfl⟩
  | function f a ih =>
    obtain ⟨m, hm⟩ := ih
    obtain ⟨y, hy⟩ := h.function f.called m
    refine ⟨.float y, ?_⟩
    rw [value, hm]
    exact congrArg (Number.float <$> ·) hy
  | angle a b iha ihb =>
    obtain ⟨m, hm⟩ := iha
    obtain ⟨m', hm'⟩ := ihb
    obtain ⟨y, hy⟩ := h.angle m m'
    refine ⟨.float y, ?_⟩
    rw [value, hm, hm']
    exact congrArg (Number.float <$> ·) hy

/-- Without the input an expression is one number on all data, if it has a value at all. -/
theorem exists_constant {t : Tree} {n : Number} (hm : t.mentions = false)
    (h : t.Defined n) : ∃ q, ∀ d, t.run d = pure (.plain q) := by
  obtain ⟨q, hq⟩ := h
  exact ⟨q, fun d => (run_of_not_mentions hm d (.plain n)).trans hq⟩

theorem value_angle {a b : Tree} {n p : Number} (h : (angle a b).value n = .ok p) :
    ∃ m m', a.value n = .ok m ∧ b.value n = .ok m' ∧ m.atan2 m' = .ok p := by
  obtain ⟨m, hm, h⟩ := bind_ok h
  obtain ⟨m', hm', h⟩ := bind_ok h
  exact ⟨m, m', hm, hm', h⟩

theorem Defined.argument {a : Tree} {n : Number} (h : (function f a).Defined n) : a.Defined n := by
  obtain ⟨p, hp⟩ := defined_iff.1 h
  obtain ⟨m, hm, -⟩ := bind_ok hp
  exact defined_iff.2 ⟨m, hm⟩

theorem Defined.coordinates {a b : Tree} {n : Number} (h : (angle a b).Defined n) :
    a.Defined n ∧ b.Defined n := by
  obtain ⟨p, hp⟩ := defined_iff.1 h
  obtain ⟨m, m', hm, hm', -⟩ := value_angle hp
  exact ⟨defined_iff.2 ⟨m, hm⟩, defined_iff.2 ⟨m', hm'⟩⟩

/-! ## Expressions on arrays -/

/-- A scalar answers an expression at a number and the scalar worth that number: it is worth
what plain evaluation gives, and is traced if the other one is. -/
def Answers (r : Reading K) (t : Tree) (e : Number × Scalar) (u : Scalar) (g : Graph) : Prop :=
  ∃ p, t.run (.plain e.1) = pure (.plain p) ∧ u.Worth r g p ∧ u.isTraced = e.2.isTraced

variable {F : Form} {d : Datum} {es : List (Number × Scalar)} {t a b : Tree}

theorem Answers.mono {e : Number × Scalar} {u : Scalar} (he : g.Extends g')
    (h : t.Answers r e u g) : t.Answers r e u g' := by
  obtain ⟨p, hp, hu, ht⟩ := h
  exact ⟨p, hp, hu.mono he, ht⟩

theorem gives_function_answers (hr : r.Follows) (hf : f ≠ acos)
    (he : ∀ e ∈ es, (function f a).Defined e.1) {us : List Scalar} (hd : F.Holds d us)
    (hs : Forall₂ (a.Answers r · · g) es us) :
    (Datum.elementary f d).Gives g fun d' g' =>
      ∃ us', F.Holds d' us' ∧ Forall₂ ((function f a).Answers r · · g') es us' := by
  refine hd.gives_onElements (Trace.gives_mapM_forall₂
    (R := fun e u g => (function f a).Defined e.1 ∧ a.Answers r e u g)
    ?_ (fun hx h => h.mono hx) ?_ ((forall₂_and_left _ _).2 ⟨he, hs⟩))
    fun us' g' hs' => hs'.length_eq.symm.trans hs.length_eq
  · rintro e u g g' hx ⟨he, hu⟩
    exact ⟨he, hu.mono hx⟩
  · rintro e u g ⟨⟨p, hp⟩, m, hm, hu, ht⟩
    obtain ⟨m', hm', hp'⟩ := bind_ok (run_plain_iff.1 hp)
    cases (run_plain_iff.1 hm).symm.trans hm'
    refine (Scalar.gives_ofNumber hr hu hp' hf).imp fun u' g' _ hu' => ?_
    exact ⟨p, hp, hu'.1, hu'.2.trans ht⟩

/-- Two scalars are the coordinates of a point that two expressions give, one of which may be
constant. -/
def Coordinates (r : Reading K) (a b : Tree) (e : Number × Scalar) (p : Scalar × Scalar)
    (g : Graph) : Prop :=
  ∃ m m', a.value e.1 = .ok m ∧ b.value e.1 = .ok m' ∧ p.1.Worth r g m ∧ p.2.Worth r g m' ∧
    (p.1.isTraced || p.2.isTraced) = e.2.isTraced

theorem gives_angle_answers (hr : r.Follows) (hd : ∀ e ∈ es, (angle a b).Defined e.1)
    {d' : Datum} {ps : List (Scalar × Scalar)} (hj : F.Joins d d' ps)
    (hs : Forall₂ (Coordinates r a b · · g) es ps) :
    (Datum.dyadic (.pairwise .atan2) d d').Gives g fun d' g' =>
      ∃ us, F.Holds d' us ∧ Forall₂ ((angle a b).Answers r · · g') es us := by
  refine hj.gives_dyadic (Trace.gives_mapM_forall₂
    (R := fun e p g => (angle a b).Defined e.1 ∧ Coordinates r a b e p g)
    ?_ (fun he h => h.mono he) ?_ ((forall₂_and_left _ _).2 ⟨hd, hs⟩))
    fun us g' hus => hus.length_eq.symm.trans hs.length_eq
  · rintro e p g g' he ⟨h, m, m', hm, hm', hx, hy, ht⟩
    exact ⟨h, m, m', hm, hm', hx.mono he, hy.mono he, ht⟩
  · rintro e ⟨x, y⟩ g ⟨⟨p, hp⟩, m, m', hm, hm', hx, hy, ht⟩
    obtain ⟨n, n', hn, hn', hp'⟩ := value_angle (run_plain_iff.1 hp)
    cases hm.symm.trans hn
    cases hm'.symm.trans hn'
    refine (Scalar.gives_atan2 hr hx hy hp').imp fun u g' _ hu => ?_
    exact ⟨p, hp, hu.1, hu.2.trans ht⟩

section Coordinates

variable {e : Number × Scalar} {x y : Scalar} {q : Number}

theorem Answers.coordinates (hx : a.Answers r e x g) (hy : b.Answers r e y g) :
    Coordinates r a b e (x, y) g := by
  obtain ⟨m, hm, hw, ht⟩ := hx
  obtain ⟨m', hm', hw', ht'⟩ := hy
  refine ⟨m, m', run_plain_iff.1 hm, run_plain_iff.1 hm', hw, hw', ?_⟩
  rw [ht, ht', Bool.or_self]

theorem Answers.coordinates_left (hx : a.Answers r e x g) (hq : ∀ d, b.run d = pure (.plain q)) :
    Coordinates r a b e (x, .plain q) g := by
  obtain ⟨m, hm, hw, ht⟩ := hx
  refine ⟨m, q, run_plain_iff.1 hm, run_plain_iff.1 (hq _), hw, rfl, ?_⟩
  rw [ht]
  exact Bool.or_false _

theorem Answers.coordinates_right (hy : b.Answers r e y g) (hq : ∀ d, a.run d = pure (.plain q)) :
    Coordinates r a b e (.plain q, y) g := by
  obtain ⟨m, hm, hw, ht⟩ := hy
  exact ⟨q, m, run_plain_iff.1 (hq _), run_plain_iff.1 hm, rfl, hw, ht⟩

end Coordinates

/-- An expression on scalars and arrays. Every element of the result is worth what plain
evaluation gives at the number that the element of the input is worth. -/
theorem gives_run (hr : r.Follows) (hi : t.Faithful) (hm : t.mentions)
    (ho : ∃ n, t.Defined n) (hd : F.Holds d (es.map Prod.snd))
    (hdef : ∀ e ∈ es, t.Defined e.1) (hs : ∀ e ∈ es, e.2.Worth r g e.1) :
    (t.run d).Gives g fun d' g' =>
      ∃ us, F.Holds d' us ∧ Forall₂ (t.Answers r · · g') es us := by
  obtain ⟨n, hn⟩ := ho
  induction t generalizing g with
  | input =>
    refine .pure ⟨es.map Prod.snd, hd, ?_⟩
    rw [forall₂_map_right_iff, forall₂_same]
    exact fun e he => ⟨e.1, rfl, hs e he, rfl⟩
  | literal x => cases hm
  | function f a ih =>
    have hf : f ≠ acos := by
      intro hc
      cases (hi.2 hc).symm.trans hm
    refine (ih hi.1 hm (fun e he => (hdef e he).argument) hs hn.argument).bind ?_
    rintro d₁ g₁ - ⟨us, hd₁, hu⟩
    exact gives_function_answers hr hf hdef hd₁ hu
  | angle a b iha ihb =>
    have hl := fun e he => (hdef e he).coordinates.1
    have hg := fun e he => (hdef e he).coordinates.2
    -- A coordinate without the input is one number, which meets every element of the other one.
    cases ha : a.mentions with
    | false =>
      have hb : b.mentions := by rwa [mentions, ha] at hm
      obtain ⟨q, hq⟩ := exists_constant ha hn.coordinates.1
      rw [run, hq d]
      refine (ihb hi.2 hb hg hs hn.coordinates.2).bind ?_
      rintro d₁ g₁ - ⟨ys, hd₁, hys⟩
      refine gives_angle_answers hr hdef (.right (.plain q) hd₁) ?_
      rw [forall₂_map_right_iff]
      exact hys.imp fun e y hy => hy.coordinates_right hq
    | true =>
      refine (iha hi.1 ha hl hs hn.coordinates.1).bind ?_
      rintro d₁ g₁ ht ⟨xs, hd₁, hxs⟩
      cases hb : b.mentions with
      | false =>
        obtain ⟨q, hq⟩ := exists_constant hb hn.coordinates.2
        rw [hq d]
        refine gives_angle_answers hr hdef (.left hd₁ (.plain q)) ?_
        rw [forall₂_map_right_iff]
        exact hxs.imp fun e x hx => hx.coordinates_left hq
      | true =>
        have hs' := fun e he => (hs e he).mono ht
        refine (ihb hi.2 hb hg hs' hn.coordinates.2).bind ?_
        rintro d₂ g₂ ht' ⟨ys, hd₂, hys⟩
        refine gives_angle_answers hr hdef (.both hd₁ hd₂) ?_
        exact (forall₂_zip_right hxs hys).imp fun e p hp => (hp.1.mono ht').coordinates hp.2

/-- **Elementary functions traced and untraced.** In a total library every expression has a value
at every plain number. On a plain number an expression is the one with arc sines for its arc
cosines. Without the input it is the same on all data. With the input, and with no arc cosine over
it, every element of the result is worth what plain evaluation gives at the number that the element
of the input is worth. -/
theorem functions_trace_alike (hr : r.Follows) (t : Tree) :
    (Library.IsTotal → ∀ n, t.Defined n) ∧
    (∀ n, t.run (.plain n) = t.arcsined.run (.plain n)) ∧
    (t.mentions = false → ∀ d d', t.run d = t.run d') ∧
    (t.Faithful → t.mentions = true → (∃ n, t.Defined n) →
      ∀ (F : Form) (d : Datum) (es : List (Number × Scalar)) (g : Graph),
        F.Holds d (es.map Prod.snd) → (∀ e ∈ es, t.Defined e.1) →
        (∀ e ∈ es, e.2.Worth r g e.1) →
        (t.run d).Gives g fun d' g' =>
          ∃ us, F.Holds d' us ∧ List.Forall₂ (t.Answers r · · g') es us) := by
  refine ⟨fun ht n => defined_iff.2 (exists_value ht t n), fun n => ?_,
    run_of_not_mentions, ?_⟩
  · rw [run_plain, run_plain, value_arcsined]
  · intro hf hm hs F d es g hd he hes
    exact gives_run hr hf hm hs hd he hes

end Tree

/-! ## The library's own reading -/

def all : List Elementary := [sqrt, exp, log, sin, cos, tan, asin, acos, atan]

end Elementary

/-- The reading in plain numbers that computes with the library, for named constants with given
contents. -/
def Library.reading [Library] (contents : NodeId → Number) : Reading Number where
  number n := n
  named := contents
  operation o ns :=
    match o, ns with
    | .atan2, [m, n] => ((m.atan2 n).toOption).getD default
    | o, [n] => (((Elementary.all.find? fun f => f.operation = o).bind fun f =>
        (Library.function f n).toOption).map Number.float).getD default
    | _, _ => default

theorem Library.follows_reading [Library] (contents : NodeId → Number) :
    (Library.reading contents).Follows where
  function f n y hy := by
    have hr : (Library.reading contents).operation f.operation [n] =
        ((Library.function f n).toOption.map Number.float).getD default := by
      cases f <;> rfl
    exact hr.trans (by rw [hy]; rfl)
  angle m n y hy := by
    change ((m.atan2 n).toOption).getD default = _
    rw [Number.atan2, hy]
    rfl

namespace Elementary.Tree

def justNamed : Graph := Graph.empty.push (.constant (.float 0.0) false)

def named : Value := ⟨⟨.float, 0⟩, .float⟩

theorem worth_named [Library] (n : Number) :
    (Scalar.traced named).Worth (Library.reading fun _ => n) justNamed n := by
  refine ⟨by decide, ?_⟩
  rw [Graph.read, Graph.fold_leaf rfl]
  rfl

/-- The angle of the point with ordinate `atan x` and abscissa one half, on a vector of a value that
is one and the number two. -/
theorem angles_of_vector :
    (Library.reading fun _ => .float 1.0).Follows ∧
    ((angle (function .atan input) (literal 0.5)).run
        (.vector [.scalar (.traced named), .plain (.float 2.0)])).Gives justNamed
      fun d g' => ∃ us, Form.vector.Holds d us ∧
        List.Forall₂ ((angle (function .atan input) (literal 0.5)).Answers
            (Library.reading fun _ => .float 1.0) · · g')
          [(.float 1.0, .traced named), (.float 2.0, .plain (.float 2.0))] us := by
  have hr := Library.follows_reading fun _ => .float 1.0
  have hf : (angle (function .atan input) (literal 0.5)).Faithful :=
    ⟨⟨trivial, nofun⟩, trivial⟩
  refine ⟨hr, (functions_trace_alike hr _).2.2.2 hf rfl ⟨.float 1.0, _, rfl⟩ .vector _ _ _
    (.vector [.traced named, .plain (.float 2.0)]) ?_ ?_⟩
  · simp only [List.forall_mem_cons, List.not_mem_nil, false_imp_iff, implies_true, and_true]
    exact ⟨⟨_, rfl⟩, ⟨_, rfl⟩⟩
  · simp only [List.forall_mem_cons, List.not_mem_nil, false_imp_iff, implies_true, and_true]
    exact ⟨worth_named _, rfl⟩

@[reducible] def atZero : Library where
  function f _ :=
    match f with
    | log => .error .domain
    | exp | cos => .ok 1.0
    | acos => .ok 1.5707963267948966
    | sqrt | sin | tan | asin | atan => .ok 0.0
  angle _ _ := .ok 0.0

/-- **The arc cosine of a plain zero is zero**, its arc sine, where the node of a value that is zero
is worth the arc cosine. -/
theorem acos_of_plain_zero :
    letI := atZero
    (Library.reading fun _ => .float 0.0).Follows ∧
    (function .acos input).run (.plain (.float 0.0)) = pure (.plain (.float 0.0)) ∧
    ((function .acos input).run (.scalar (.traced named))).Gives justNamed (fun d g' =>
      ∃ u, d = .scalar u ∧
        u.read g' (Library.reading fun _ => .float 0.0) = .float 1.5707963267948966) ∧
    (Number.float 1.5707963267948966).eq (.float 0.0) = false := by
  let _ : Library := atZero
  refine ⟨Library.follows_reading _, rfl, ?_, by decide +kernel⟩
  change (Datum.scalar <$> Scalar.operate .acos [.traced named]).Gives justNamed _
  rw [map_eq_pure_bind]
  refine (Scalar.gives_node_worth (p := .float 1.5707963267948966) [.float 0.0]
    (.cons (worth_named (.float 0.0)) .nil) (fun cells hc => ?_) rfl).bind ?_
  · obtain ⟨c, rfl⟩ := List.length_eq_one_iff.1 hc
    rfl
  · intro u g' _ hu
    exact .pure ⟨u, rfl, hu.1.read_eq⟩

end Elementary.Tree

end Patchwork
