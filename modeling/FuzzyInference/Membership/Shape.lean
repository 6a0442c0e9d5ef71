import FuzzyInference.Error
import FuzzyInference.Numeric.Interpolation

/-!
# Shapes of membership

A membership function assigns a degree to every number. The functions that occur most often
are given by a few control points. A shape can only be made from points in ascending order;
points may coincide, which gives a shape vertical sides.
-/

namespace FuzzyInference

variable {α : Type} [Scalar α]

/-- Each number is at most the next. -/
def Ascending : List α → Prop
  | [] => True
  | [_] => True
  | a :: b :: rest => a ≤ b ∧ Ascending (b :: rest)

/-- Whether numbers ascend can be decided neighbour by neighbour. -/
def decideAscending : (vs : List α) → Decidable (Ascending vs)
  | [] => isTrue trivial
  | [_] => isTrue trivial
  | a :: b :: rest =>
    match inferInstanceAs (Decidable (a ≤ b)), decideAscending (b :: rest) with
    | isTrue h, isTrue hr => isTrue ⟨h, hr⟩
    | isFalse h, _ => isFalse fun hab => h hab.1
    | _, isFalse hr => isFalse fun hab => hr hab.2

instance (vs : List α) : Decidable (Ascending vs) := decideAscending vs

/-- A triangle with its peak over `x₂`. -/
structure Triangle (α : Type) [Scalar α] where
  x₁ : α
  x₂ : α
  x₃ : α
  ascending : Ascending [x₁, x₂, x₃]

namespace Triangle

/-- The triangle over three points. -/
def ofPoints (x₁ x₂ x₃ : α) : Except (Error α) (Triangle α) :=
  if h : Ascending [x₁, x₂, x₃] then .ok ⟨x₁, x₂, x₃, h⟩ else .error (.unorderedPoints [x₁, x₂, x₃])

/-- Zero outside, one at the peak, straight between. A peak on a vertical side counts as inside. -/
def value (t : Triangle α) (x : α) : α :=
  if x == t.x₂ && (x == t.x₁ || x == t.x₃) then 1
  else if x ≤ t.x₁ ∨ t.x₃ ≤ x then 0
  else if x == t.x₂ then 1
  else if x < t.x₂ then (x - t.x₁) / (t.x₂ - t.x₁)
  else (t.x₃ - x) / (t.x₃ - t.x₂)

end Triangle

/-- A trapezoid with its plateau between `x₂` and `x₃`. -/
structure Trapezoid (α : Type) [Scalar α] where
  x₁ : α
  x₂ : α
  x₃ : α
  x₄ : α
  ascending : Ascending [x₁, x₂, x₃, x₄]

namespace Trapezoid

/-- The trapezoid over four points. -/
def ofPoints (x₁ x₂ x₃ x₄ : α) : Except (Error α) (Trapezoid α) :=
  if h : Ascending [x₁, x₂, x₃, x₄] then .ok ⟨x₁, x₂, x₃, x₄, h⟩
  else .error (.unorderedPoints [x₁, x₂, x₃, x₄])

/-- Zero outside, one on the plateau, straight between. A point on a vertical side counts as
inside. -/
def value (t : Trapezoid α) (x : α) : α :=
  if (x == t.x₁ && x == t.x₂) || (x == t.x₃ && x == t.x₄) then 1
  else if x ≤ t.x₁ ∨ t.x₄ ≤ x then 0
  else if t.x₂ ≤ x ∧ x ≤ t.x₃ then 1
  else if x < t.x₂ then (x - t.x₁) / (t.x₂ - t.x₁)
  else (t.x₄ - x) / (t.x₄ - t.x₃)

end Trapezoid

/-- A bell curve of height one. -/
structure Bell (α : Type) where
  center : α
  width : α

namespace Bell

/-- The bell around zero of width one. -/
def standard : Bell α := ⟨0, 1⟩

/-- The density of the normal distribution, scaled to height one. -/
def value (b : Bell α) (x : α) : α :=
  let d := x - b.center
  Scalar.exp (-d * d / (2 * b.width * b.width))

end Bell

/-- The bell around the peak of a triangle, two and a half widths of which span half of the base. -/
def Triangle.bell (t : Triangle α) : Bell α := ⟨t.x₂, (t.x₃ - t.x₁) / 5⟩

/-- The same degree everywhere. -/
structure Level (α : Type) [Scalar α] where
  degree : α
  inUnit : 0 ≤ degree ∧ degree ≤ 1

namespace Level

/-- The constant function of a degree between zero and one. -/
def ofDegree (degree : α) : Except (Error α) (Level α) :=
  if h : 0 ≤ degree ∧ degree ≤ 1 then .ok ⟨degree, h⟩ else .error (.constantOutOfRange degree)

/-- The degree, whatever the number. -/
def value (l : Level α) (_ : α) : α := l.degree

end Level

/-- Points joined by straight lines. -/
structure Polyline (α : Type) [Scalar α] where
  points : List (α × α)
  nonempty : points ≠ []
  ascending : Ascending (points.map Prod.fst)

namespace Polyline

/-- The line through points that are given from left to right. -/
def ofPoints (points : List (α × α)) : Except (Error α) (Polyline α) :=
  if hp : points = [] then .error .noPoints
  else
    let abscissas := points.map Prod.fst
    if h : Ascending abscissas then .ok ⟨points, hp, h⟩ else .error (.unorderedPoints abscissas)

/-- The height of the line, which runs level beyond its ends. -/
def value (p : Polyline α) (x : α) : α := Numeric.interpolate x p.points

end Polyline

end FuzzyInference
