import GraphGrammar.Graph.Element

/-!
# Planar projective transforms

A transform takes the x and y of a point through a homogeneous 3 × 3 matrix
and leaves z as it is. Its three rows are linear forms in x, y and 1; the
first two give the new coordinates and the last one the denominator they are
divided by. A denominator of zero divides nothing.

The coordinates may come from any type with the arithmetic, so that the laws
of composition can be stated where arithmetic is exact. Positions of nodes
are floating-point numbers, and there every sum is taken from left to right.
-/

namespace GraphGrammar

/-- A linear form: the coefficients of x, y and 1. -/
structure Row (α : Type) where
  x : α
  y : α
  one : α
deriving DecidableEq, BEq, Repr, Inhabited

/-- A homogeneous transform of the plane. -/
structure Transform (α : Type) where
  xRow : Row α
  yRow : Row α
  /-- The denominator. -/
  wRow : Row α
deriving DecidableEq, BEq, Repr, Inhabited

section Arithmetic

variable {α : Type} [Add α] [Mul α]

/-- The value of a linear form at a point. -/
def Row.valueAt (r : Row α) (p : Point α) : α := r.x * p.x + r.y * p.y + r.one

/-- The linear form after a transform: its value at the transformed point, in
terms of the point and up to the denominator. -/
def Row.after (r : Row α) (t : Transform α) : Row α where
  x := r.x * t.xRow.x + r.y * t.yRow.x + r.one * t.wRow.x
  y := r.x * t.xRow.y + r.y * t.yRow.y + r.one * t.wRow.y
  one := r.x * t.xRow.one + r.y * t.yRow.one + r.one * t.wRow.one

end Arithmetic

namespace Transform

variable {α : Type}

/-- A transform followed by another one. -/
def andThen [Add α] [Mul α] (t next : Transform α) : Transform α where
  xRow := next.xRow.after t
  yRow := next.yRow.after t
  wRow := next.wRow.after t

/-- The image of a point. -/
def apply [Add α] [Mul α] [Div α] [BEq α] [OfNat α 0] [OfNat α 1] (t : Transform α)
    (p : Point α) : Point α :=
  let w := t.wRow.valueAt p
  if w == 0 || w == 1 then ⟨t.xRow.valueAt p, t.yRow.valueAt p, p.z⟩
  else ⟨t.xRow.valueAt p / w, t.yRow.valueAt p / w, p.z⟩

/-! ## The common transforms

All of them but the rotation can be written down over any numbers that have a zero and a one. A
rotation needs a sine and a cosine, so it is given for floating-point numbers. -/

section Common

variable [OfNat α 0] [OfNat α 1]

/-- Leaves every point where it is. -/
def identity : Transform α := ⟨⟨1, 0, 0⟩, ⟨0, 1, 0⟩, ⟨0, 0, 1⟩⟩

/-- Moves points by a distance in each direction. -/
def shift (dx dy : α) : Transform α := ⟨⟨1, 0, dx⟩, ⟨0, 1, dy⟩, ⟨0, 0, 1⟩⟩

/-- Stretches the plane by a factor in each direction. -/
def scale (sx sy : α) : Transform α := ⟨⟨sx, 0, 0⟩, ⟨0, sy, 0⟩, ⟨0, 0, 1⟩⟩

/-- Slants the plane. -/
def skew (kx ky : α) : Transform α := ⟨⟨1, kx, 0⟩, ⟨ky, 1, 0⟩, ⟨0, 0, 1⟩⟩

/-- Flips across the y axis. -/
def flipX [Neg α] : Transform α := scale (-1) 1

/-- Flips across the x axis. -/
def flipY [Neg α] : Transform α := scale 1 (-1)

/-- Keeps the coordinates and sets the denominator's coefficients. -/
def projection (px py : α) : Transform α := ⟨⟨1, 0, 0⟩, ⟨0, 1, 0⟩, ⟨px, py, 1⟩⟩

/-- Whether a transform is the identity, number by number. -/
def isIdentity [BEq α] (t : Transform α) : Bool := t == identity

end Common

/-- Turns the plane counter-clockwise by an angle in radians. -/
def rotate (angle : Float) : Transform Float :=
  let sin := angle.sin
  let cos := angle.cos
  ⟨⟨cos, -sin, 0⟩, ⟨sin, cos, 0⟩, ⟨0, 0, 1⟩⟩

end Transform

end GraphGrammar
