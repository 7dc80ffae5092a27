import Patchwork.Proofs.Target
import Patchwork.Script.Jit

/-!
# Inputs of compiled functions

The first call of a function makes variables of its arguments, one for each number. Arguments
of one shape become the same variables with other numbers, and writing arguments to variables
writes their numbers one after the other.
-/

namespace Patchwork

open List Script

/-! ## Arguments -/

def Number.kind : Number → Kind
  | .int _ => .int
  | .bool _ => .bool
  | .float _ => .float

theorem Number.cell_kind (n : Number) : n.kind.cell = n.cell := by cases n <;> rfl

theorem Number.cell_of_kind {m n : Number} (h : m.kind = n.kind) : m.cell = n.cell := by
  rw [← m.cell_kind, h, n.cell_kind]

/-- Arguments of one shape: two numbers of one kind, or two collections with as many items,
which are of one shape one after the other. -/
inductive SameShape : Datum → Datum → Prop
  | number {m n : Number} (h : m.kind = n.kind) : SameShape (.plain m) (.plain n)
  | items {d e : Datum} {ds es : List Datum} (hd : d.isIterable = true) (he : e.isIterable = true)
      (hds : d.iterate = .ok ds) (hes : e.iterate = .ok es) (h : List.Forall₂ SameShape ds es) :
      SameShape d e

/-- Which number each value of an input gets from an argument. -/
inductive Feeds : Datum → Datum → List (Value × Number) → Prop
  | number (v : Value) (n : Number) : Feeds (.traced v) (.plain n) [(v, n)]
  | items {d : Datum} (vs : List Value) (ns : List Number) (hd : d.isIterable = true)
      (hns : d.iterate = .ok (ns.map .plain)) (h : vs.length = ns.length) :
      Feeds (.tuple (vs.map .traced)) d (vs.zip ns)

/-- Which number each value of some inputs gets from as many arguments. -/
inductive FeedsAll : List Datum → List Datum → List (Value × Number) → Prop
  | nil : FeedsAll [] [] []
  | cons {x d : Datum} {xs ds : List Datum} {pairs rest : List (Value × Number)}
      (h : Feeds x d pairs) (hrest : FeedsAll xs ds rest) :
      FeedsAll (x :: xs) (d :: ds) (pairs ++ rest)

theorem Feeds.values {x d : Datum} {pairs : List (Value × Number)} (h : Feeds x d pairs) :
    Target.requested x = pairs.map Prod.fst := by
  cases h with
  | number v n => rfl
  | items vs ns hd hn h =>
    have hv : Target.requested (.tuple (vs.map .traced)) = vs := filterMap_map.trans filterMap_some
    rw [hv, map_fst_zip (Nat.le_of_eq h)]

theorem FeedsAll.values {inputs arguments : List Datum} {pairs : List (Value × Number)}
    (h : FeedsAll inputs arguments pairs) :
    inputs.flatMap Target.requested = pairs.map Prod.fst := by
  induction h with
  | nil => rfl
  | cons h _ ih => rw [flatMap_cons, h.values, ih, map_append]

namespace Target

variable {g : Graph}

/-- Writes an item of a collection after others, unless one of them has failed. -/
def writeItem (g : Graph) (depth : Nat) (state : Except Fault Unit × Target) (p : Datum × Datum) :
    Except Fault Unit × Target :=
  match state.1 with
  | .ok () => writeTo g depth state.2 p.1 p.2
  | .error _ => state

theorem writeTo_succ (depth : Nat) (t : Target) (slots data : Datum) :
    writeTo g (depth + 1) t slots data = if slots.isIterable then
        if data.isIterable then
          match slots.iterate, data.iterate with
          | .ok vs, .ok ds => (vs.zip ds).foldl (writeItem g depth) (.ok (), t)
          | .error f, _ | _, .error f => (.error f, t)
        else (.error (.violated .manyValues), t)
      else if data.isIterable then (.error (.violated .oneValue), t)
      else match slots with
        | .scalar (.traced v) => match t.writeValue g v data with
          | .ok t => (.ok (), t)
          | .error f => (.error f, t)
        | _ => (.error (.violated .tracedValue), t) := by
  rw [writeTo.eq_def]
  rfl

end Target

/-! ## Scripts -/

namespace Script

variable {α β : Type} {x : Script α} {f : α → Script β} {s s' : Session}

theorem run_bind_ok {a : α} (h : x.run s = (.ok a, s')) : (x >>= f).run s = (f a).run s' := by
  change ExceptT.bindCont f (x.run s).1 (x.run s).2 = _
  rw [h]
  rfl

theorem run_bind_error {e : Fault} (h : x.run s = (.error e, s')) :
    (x >>= f).run s = (.error e, s') := by
  change ExceptT.bindCont f (x.run s).1 (x.run s).2 = _
  rw [h]
  rfl

theorem of_run_bind {b : β} {s'' : Session} (h : (x >>= f).run s = (.ok b, s'')) :
    ∃ a s', x.run s = (.ok a, s') ∧ (f a).run s' = (.ok b, s'') := by
  rcases hx : x.run s with ⟨outcome, s'⟩
  cases outcome with
  | error e =>
    rw [run_bind_error hx] at h
    cases h
  | ok a => exact ⟨a, s', rfl, run_bind_ok hx ▸ h⟩

theorem run_set (s s' : Session) : (set s' : Script Unit).run s = (.ok (), s') := rfl

end Script

/-! ## Inputs -/

namespace Graph.Renumbered

variable {g g' g₁ g₁' : Graph} {pairs : List (Value × Number)}

/-- What is appended after the variables does not change their numbers. -/
theorem extend (h : g.Renumbered g' pairs)
    (hv : g₁.Variant (fun k => ∃ p ∈ pairs, p.1.net.source = k) g₁')
    (ha : g'.Extends g₁') : g₁.Renumbered g₁' pairs where
  variant := hv
  below p hp := Nat.lt_of_lt_of_le (h.below p hp) ha.size
  number p hp := (ha.node _ (h.below p hp)).trans (h.number p hp)

theorem trace {α : Type} {t : Trace α} {x x' : α} (h : g.Renumbered g' pairs) (ht : t.Uniform)
    (hx : t g = .ok (x, g₁)) (hx' : t g' = .ok (x', g₁')) : x' = x ∧ g₁.Renumbered g₁' pairs := by
  have ha := ht.alike h.variant
  rw [hx, hx'] at ha
  cases ha with
  | ok _ hv => exact ⟨rfl, h.extend hv (ht.appends hx')⟩

theorem push (h : g.Renumbered g' pairs) {m n : Number} (hd : m.kind = n.kind) :
    (g.push (.constant m false)).Renumbered (g'.push (.constant n false))
      (pairs ++ [(⟨⟨n.cell, g.size⟩, n.kind⟩, n)]) where
  variant := by
    refine (h.variant.mono ?_).push (.number ?_ (Number.cell_of_kind hd))
    · rintro k ⟨p, hp, hk⟩
      exact ⟨p, mem_append_left _ hp, hk⟩
    · exact ⟨_, mem_append_right _ (mem_singleton_self _), rfl⟩
  below p hp := by
    rw [Graph.size_push]
    obtain hp | hp := mem_append.1 hp
    · exact Nat.lt_succ_of_lt (h.below p hp)
    · obtain rfl := mem_singleton.1 hp
      rw [h.variant.size]
      exact Nat.lt_succ_self _
  number p hp := by
    obtain hp | hp := mem_append.1 hp
    · rw [Graph.node_push_of_lt _ _ (h.below p hp), h.number p hp]
    · obtain rfl := mem_singleton.1 hp
      rw [← h.variant.size, Graph.node_push_size]

end Graph.Renumbered

namespace Compiled

variable {g g' : Graph} {pairs : List (Value × Number)} {s s₁ : Session}

theorem makeValue_iterable {d : Datum} (hd : d.isIterable) (s : Session) :
    ∃ f, (Script.trace (Datum.makeValue d .absent)).run s = (.error f, s) := by
  cases d with
  | scalar | net => cases hd
  | _ => exact ⟨_, rfl⟩

theorem exists_numbers {ds es xs : List Datum} (hs : Forall₂ SameShape ds es)
    (hr : (ds.mapM fun d => Script.trace (Datum.makeValue d .absent)).run s = (.ok xs, s₁)) :
    ∃ ms ns : List Number, ds = ms.map .plain ∧ es = ns.map .plain ∧
      ms.map Number.kind = ns.map Number.kind := by
  induction hs generalizing xs s s₁ with
  | nil => exact ⟨[], [], rfl, rfl, rfl⟩
  | cons hd _ ih =>
    rw [mapM_cons] at hr
    obtain ⟨x, s', hx, hr⟩ := of_run_bind hr
    obtain ⟨xs', s'', hxs, -⟩ := of_run_bind hr
    obtain ⟨ms, ns, rfl, rfl, hk⟩ := ih hxs
    cases hd with
    | @number m n hkd => exact ⟨m :: ms, n :: ns, rfl, rfl, by simp [hkd, hk]⟩
    | items hd =>
      obtain ⟨f, he⟩ := makeValue_iterable hd s
      rw [he] at hx
      cases hx

end Compiled

end Patchwork
