import Patchwork.Vector

/-!
# Quaternions

Rotations of space, as four numbers. The product is Hamilton's; a vector is rotated by
conjugation with the quaternion and its inverse.
-/

namespace Patchwork

/-- Four numbers that stand for a rotation of space. -/
structure Quaternion (α : Type) where
  w : α
  x : α
  y : α
  z : α
  deriving Repr, DecidableEq

namespace Quaternion

variable {α : Type}

def components (q : Quaternion α) : List α := [q.w, q.x, q.y, q.z]

def mapM {m : Type → Type} [Monad m] {β : Type} (f : α → m β) (q : Quaternion α) :
    m (Quaternion β) := do
  return ⟨← f q.w, ← f q.x, ← f q.y, ← f q.z⟩

def zipWithM {m : Type → Type} [Monad m] (f : α → α → m α) (p q : Quaternion α) :
    m (Quaternion α) := do
  return ⟨← f p.w q.w, ← f p.x q.x, ← f p.y q.y, ← f p.z q.z⟩

variable {m : Type → Type} [Monad m] [MonadExceptOf Fault m] [Arithmetic m α]

open Arithmetic

/-- Applies an operation to every component and one number, which becomes one named
constant if it is plain. -/
def withScalar (f : α → α → m α) (q : Quaternion α) (s : α) : m (Quaternion α) := do
  if isTraced m s then q.mapM fun v => f v s
  else
    let shared ← named s
    q.mapM fun v => f v (if isTraced m v then shared else s)

def identity (m : Type → Type) {α : Type} [Arithmetic m α] : Quaternion α :=
  ⟨real m 1, real m 0, real m 0, real m 0⟩

def mul (p q : Quaternion α) : m (Quaternion α) := do
  let row (a b c d : α × α) (f g h : α → α → m α) : m α := do
    let ab ← f (← Arithmetic.mul (m := m) a.1 a.2) (← Arithmetic.mul (m := m) b.1 b.2)
    let abc ← g ab (← Arithmetic.mul (m := m) c.1 c.2)
    h abc (← Arithmetic.mul (m := m) d.1 d.2)
  let w ← row (p.w, q.w) (p.x, q.x) (p.y, q.y) (p.z, q.z) sub sub sub
  let x ← row (p.w, q.x) (p.x, q.w) (p.y, q.z) (p.z, q.y) add add sub
  let y ← row (p.w, q.y) (p.x, q.z) (p.y, q.w) (p.z, q.x) sub add add
  let z ← row (p.w, q.z) (p.x, q.y) (p.y, q.x) (p.z, q.w) add sub add
  return ⟨w, x, y, z⟩

def neg (q : Quaternion α) : m (Quaternion α) := q.mapM Arithmetic.neg

def conjugate (q : Quaternion α) : m (Quaternion α) := do
  return ⟨q.w, ← Arithmetic.neg q.x, ← Arithmetic.neg q.y, ← Arithmetic.neg q.z⟩

def norm (q : Quaternion α) : m α := do
  elementary .sqrt (← mixedTotal (m := m) (← q.components.mapM square))

/-- The quaternion divided by its norm. A plain norm of zero gives the identity. -/
def normalize (q : Quaternion α) : m (Quaternion α) := do
  let n ← q.norm
  if isZero m n then return identity m
  else q.mapM fun v => div v n

/-- The conjugate divided by the square of the norm. A plain norm of zero gives the
identity. -/
def inverse (q : Quaternion α) : m (Quaternion α) := do
  let n ← square (m := m) (← q.norm)
  if isZero m n then return identity m
  else (← q.conjugate).mapM fun v => div v n

/-- The vector part of the product of the quaternion, a pure vector and the inverse.
Components that a short vector lacks count as zero. -/
def rotate (q : Quaternion α) (v : List α) : m (List α) := do
  if 3 < v.length then throw .illTyped
  let part (k : Nat) : α := v.getD k (real m 0)
  let p : Quaternion α := ⟨int m 0, part 0, part 1, part 2⟩
  let r ← (← q.mul p).mul (← q.inverse)
  return [r.x, r.y, r.z]

def rotationMatrix (q : Quaternion α) : m (List (List α)) := do
  let x2 ← add (m := m) q.x q.x
  let y2 ← add (m := m) q.y q.y
  let z2 ← add (m := m) q.z q.z
  let xx ← Arithmetic.mul (m := m) q.x x2
  let xy ← Arithmetic.mul (m := m) q.x y2
  let xz ← Arithmetic.mul (m := m) q.x z2
  let yy ← Arithmetic.mul (m := m) q.y y2
  let yz ← Arithmetic.mul (m := m) q.y z2
  let zz ← Arithmetic.mul (m := m) q.z z2
  let wx ← Arithmetic.mul (m := m) q.w x2
  let wy ← Arithmetic.mul (m := m) q.w y2
  let wz ← Arithmetic.mul (m := m) q.w z2
  let one : α := real m 1
  let zero : α := real m 0
  let rest (a b : α) : m α := do sub one (← add (m := m) a b)
  return [
    [← rest yy zz, ← sub (m := m) xy wz, ← add (m := m) xz wy, zero],
    [← add (m := m) xy wz, ← rest xx zz, ← sub (m := m) yz wx, zero],
    [← sub (m := m) xz wy, ← add (m := m) yz wx, ← rest xx yy, zero],
    [zero, zero, zero, one]]

/-- The quaternion of three successive turns about the axes. -/
def ofEuler (roll pitch yaw : α) : m (Quaternion α) := do
  let half : α := literal m (.decimal 5 (-1))
  let angle (f : Elementary) (a : α) : m α := do
    elementary f (← Arithmetic.mul (m := m) a half)
  let cy ← angle .cos yaw
  let sy ← angle .sin yaw
  let cp ← angle .cos pitch
  let sp ← angle .sin pitch
  let cr ← angle .cos roll
  let sr ← angle .sin roll
  let triple (a b c : α) : m α := do
    Arithmetic.mul (m := m) (← Arithmetic.mul (m := m) a b) c
  let w ← add (m := m) (← triple cr cp cy) (← triple sr sp sy)
  let x ← sub (m := m) (← triple sr cp cy) (← triple cr sp sy)
  let y ← add (m := m) (← triple cr sp cy) (← triple sr cp sy)
  let z ← sub (m := m) (← triple cr cp sy) (← triple sr sp cy)
  return ⟨w, x, y, z⟩

def eulerAngles (q : Quaternion α) : m (List α) := do
  let products (a b c d : α) (f : α → α → m α) : m α := do
    let inner ← f (← Arithmetic.mul (m := m) a b) (← Arithmetic.mul (m := m) c d)
    Arithmetic.mul (m := m) (int m 2) inner
  let oneMinus (a : α) : m α := sub (int m 1) a
  let yaw ← atan2 (m := m) (← products q.w q.z q.x q.y add)
    (← oneMinus (← products q.y q.y q.z q.z add))
  let sine ← clamp (m := m) (← products q.w q.y q.z q.x sub) (real m (-1)) (real m 1)
  let pitch ← elementary (m := m) .asin sine
  let roll ← atan2 (m := m) (← products q.w q.x q.y q.z add)
    (← oneMinus (← products q.x q.x q.y q.y add))
  return [roll, pitch, yaw]

/-- A unit axis and the angle of the turn about it. Near the identity the axis is the
first one and the angle is zero. -/
def axisAngle (q : Quaternion α) : m (List α × α) := do
  let n ← q.normalize
  let tiny : α := literal m (.decimal 1 (-6))
  let squared ← sub (m := m) (int m 1) (← Arithmetic.mul (m := m) n.w n.w)
  let near ← binary (m := m) .lt squared tiny
  let root ← elementary (m := m) .sqrt (← select (m := m) near tiny squared)
  let s ← div (m := m) (int m 1) root
  let full ← Arithmetic.mul (m := m) (int m 2) (← elementary (m := m) .acos n.w)
  let angle ← select (m := m) near (real m 0) full
  let along (fallback v : α) : m α := do
    select near fallback (← Arithmetic.mul (m := m) v s)
  return ([← along (real m 1) n.x, ← along (real m 0) n.y, ← along (real m 0) n.z], angle)

end Quaternion

end Patchwork
