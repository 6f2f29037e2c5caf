import Solids.Vec3
/-!
# Solids.Mat4

**Affine maps of space** as matrices of four rows and four columns.

A point is mapped with the last column added, a direction without it. The bottom
row of a map that moves solids is `0 0 0 1`; the inverse transpose of such a map
has its translation in the bottom row instead, and `mapVector` divides by what
that row makes of the vector (see there).
-/

namespace Solids

/-- A matrix of four rows and four columns; `mrc` is the entry in row `r` and
column `c`. -/
structure Mat4 (K : Type) where
  (m00 m01 m02 m03 : K)
  (m10 m11 m12 m13 : K)
  (m20 m21 m22 m23 : K)
  (m30 m31 m32 m33 : K)
  deriving Repr

namespace Mat4

variable {K : Type}

/-- Rows and columns exchanged. -/
def transpose (m : Mat4 K) : Mat4 K :=
  ⟨m.m00, m.m10, m.m20, m.m30,
   m.m01, m.m11, m.m21, m.m31,
   m.m02, m.m12, m.m22, m.m32,
   m.m03, m.m13, m.m23, m.m33⟩

variable [Scalar K]

/-- Moves every point by `v`. -/
def translation (v : Vec3 K) : Mat4 K :=
  ⟨1, 0, 0, v.x,
   0, 1, 0, v.y,
   0, 0, 1, v.z,
   0, 0, 0, 1⟩

/-- Stretches each axis by its own factor. -/
def scaling (factors : Vec3 K) : Mat4 K :=
  ⟨factors.x, 0, 0, 0,
   0, factors.y, 0, 0,
   0, 0, factors.z, 0,
   0, 0, 0, 1⟩

/-- Turns about the first axis, then the second, then the third, by the angles
in `radians`: the product of the three turns, the first one rightmost. -/
def rotation [Trig K] (radians : Vec3 K) : Mat4 K :=
  let sr := Trig.sin radians.x
  let cr := Trig.cos radians.x
  let sp := Trig.sin radians.y
  let cp := Trig.cos radians.y
  let sy := Trig.sin radians.z
  let cy := Trig.cos radians.z
  ⟨cy * cp, cy * sp * sr - sy * cr, cy * sp * cr + sy * sr, 0,
   sy * cp, sy * sp * sr + cy * cr, sy * sp * cr - cy * sr, 0,
   -sp, cp * sr, cp * cr, 0,
   0, 0, 0, 1⟩

/-- The determinant of the part that acts on directions, the upper left three
rows and columns. -/
def linearDet (m : Mat4 K) : K :=
  m.m00 * (m.m11 * m.m22 - m.m21 * m.m12)
    - m.m01 * (m.m10 * m.m22 - m.m20 * m.m12)
    + m.m02 * (m.m10 * m.m21 - m.m20 * m.m11)

/-- The image of a point: rows times the point plus the last column, divided by
what the bottom row gives, unless that is zero. -/
@[inline] def mapPoint (m : Mat4 K) (p : Vec3 K) : Vec3 K :=
  let q : Vec3 K :=
    ⟨m.m00 * p.x + m.m01 * p.y + m.m02 * p.z + m.m03,
     m.m10 * p.x + m.m11 * p.y + m.m12 * p.z + m.m13,
     m.m20 * p.x + m.m21 * p.y + m.m22 * p.z + m.m23⟩
  let n := m.m30 * p.x + m.m31 * p.y + m.m32 * p.z + m.m33
  if Scalar.isZero n then q else q.divide n

/-- The image of a direction: the vector is divided by what the bottom row gives,
unless that is zero, and then mapped without the last column.

The bottom row of the inverse transpose of a translation by `t` is `-t`, so a
normal that points along `t` comes out reversed. The vertices do not. -/
@[inline] def mapVector (m : Mat4 K) (v : Vec3 K) : Vec3 K :=
  let n := m.m30 * v.x + m.m31 * v.y + m.m32 * v.z
  let u := if Scalar.isZero n then v else v.divide n
  ⟨m.m00 * u.x + m.m01 * u.y + m.m02 * u.z,
   m.m10 * u.x + m.m11 * u.y + m.m12 * u.z,
   m.m20 * u.x + m.m21 * u.y + m.m22 * u.z⟩

/-- The transposed matrix of cofactors: the inverse, but for the division by the
determinant. -/
def adjugate (m : Mat4 K) : Mat4 K where
  m00 :=
    m.m11 * m.m22 * m.m33 - m.m11 * m.m32 * m.m23 - m.m12 * m.m21 * m.m33
      + m.m12 * m.m31 * m.m23 + m.m13 * m.m21 * m.m32 - m.m13 * m.m31 * m.m22
  m01 :=
    -m.m01 * m.m22 * m.m33 + m.m01 * m.m32 * m.m23 + m.m02 * m.m21 * m.m33
      - m.m02 * m.m31 * m.m23 - m.m03 * m.m21 * m.m32 + m.m03 * m.m31 * m.m22
  m02 :=
    m.m01 * m.m12 * m.m33 - m.m01 * m.m32 * m.m13 - m.m02 * m.m11 * m.m33
      + m.m02 * m.m31 * m.m13 + m.m03 * m.m11 * m.m32 - m.m03 * m.m31 * m.m12
  m03 :=
    -m.m01 * m.m12 * m.m23 + m.m01 * m.m22 * m.m13 + m.m02 * m.m11 * m.m23
      - m.m02 * m.m21 * m.m13 - m.m03 * m.m11 * m.m22 + m.m03 * m.m21 * m.m12
  m10 :=
    -m.m10 * m.m22 * m.m33 + m.m10 * m.m32 * m.m23 + m.m12 * m.m20 * m.m33
      - m.m12 * m.m30 * m.m23 - m.m13 * m.m20 * m.m32 + m.m13 * m.m30 * m.m22
  m11 :=
    m.m00 * m.m22 * m.m33 - m.m00 * m.m32 * m.m23 - m.m02 * m.m20 * m.m33
      + m.m02 * m.m30 * m.m23 + m.m03 * m.m20 * m.m32 - m.m03 * m.m30 * m.m22
  m12 :=
    -m.m00 * m.m12 * m.m33 + m.m00 * m.m32 * m.m13 + m.m02 * m.m10 * m.m33
      - m.m02 * m.m30 * m.m13 - m.m03 * m.m10 * m.m32 + m.m03 * m.m30 * m.m12
  m13 :=
    m.m00 * m.m12 * m.m23 - m.m00 * m.m22 * m.m13 - m.m02 * m.m10 * m.m23
      + m.m02 * m.m20 * m.m13 + m.m03 * m.m10 * m.m22 - m.m03 * m.m20 * m.m12
  m20 :=
    m.m10 * m.m21 * m.m33 - m.m10 * m.m31 * m.m23 - m.m11 * m.m20 * m.m33
      + m.m11 * m.m30 * m.m23 + m.m13 * m.m20 * m.m31 - m.m13 * m.m30 * m.m21
  m21 :=
    -m.m00 * m.m21 * m.m33 + m.m00 * m.m31 * m.m23 + m.m01 * m.m20 * m.m33
      - m.m01 * m.m30 * m.m23 - m.m03 * m.m20 * m.m31 + m.m03 * m.m30 * m.m21
  m22 :=
    m.m00 * m.m11 * m.m33 - m.m00 * m.m31 * m.m13 - m.m01 * m.m10 * m.m33
      + m.m01 * m.m30 * m.m13 + m.m03 * m.m10 * m.m31 - m.m03 * m.m30 * m.m11
  m23 :=
    -m.m00 * m.m11 * m.m23 + m.m00 * m.m21 * m.m13 + m.m01 * m.m10 * m.m23
      - m.m01 * m.m20 * m.m13 - m.m03 * m.m10 * m.m21 + m.m03 * m.m20 * m.m11
  m30 :=
    -m.m10 * m.m21 * m.m32 + m.m10 * m.m31 * m.m22 + m.m11 * m.m20 * m.m32
      - m.m11 * m.m30 * m.m22 - m.m12 * m.m20 * m.m31 + m.m12 * m.m30 * m.m21
  m31 :=
    m.m00 * m.m21 * m.m32 - m.m00 * m.m31 * m.m22 - m.m01 * m.m20 * m.m32
      + m.m01 * m.m30 * m.m22 + m.m02 * m.m20 * m.m31 - m.m02 * m.m30 * m.m21
  m32 :=
    -m.m00 * m.m11 * m.m32 + m.m00 * m.m31 * m.m12 + m.m01 * m.m10 * m.m32
      - m.m01 * m.m30 * m.m12 - m.m02 * m.m10 * m.m31 + m.m02 * m.m30 * m.m11
  m33 :=
    m.m00 * m.m11 * m.m22 - m.m00 * m.m21 * m.m12 - m.m01 * m.m10 * m.m22
      + m.m01 * m.m20 * m.m12 + m.m02 * m.m10 * m.m21 - m.m02 * m.m20 * m.m11

/-- The determinant, developed along the first column. -/
def det (m : Mat4 K) : K :=
  let a := m.adjugate
  m.m00 * a.m00 + m.m10 * a.m01 + m.m20 * a.m02 + m.m30 * a.m03

/-- Every entry times `a`. -/
def scaleEntries (m : Mat4 K) (a : K) : Mat4 K :=
  ⟨m.m00 * a, m.m01 * a, m.m02 * a, m.m03 * a,
   m.m10 * a, m.m11 * a, m.m12 * a, m.m13 * a,
   m.m20 * a, m.m21 * a, m.m22 * a, m.m23 * a,
   m.m30 * a, m.m31 * a, m.m32 * a, m.m33 * a⟩

/-- The inverse, if the determinant is not zero. -/
def inverse? (m : Mat4 K) : Option (Mat4 K) :=
  if Scalar.isZero m.det then none else some (m.adjugate.scaleEntries (1 / m.det))

/-- The matrix that maps normals when `m` maps points: the transposed inverse. -/
def normalMatrix? (m : Mat4 K) : Option (Mat4 K) := m.inverse?.map transpose

end Mat4

end Solids
