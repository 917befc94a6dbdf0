import CertifiedZeros.Certificate.Basic

/-! # The text of a report

A report is written as one line for the verdict, one for the bounds, and one each for the roots,
the radii and the value of the polynomial, as far as they are there. -/

namespace CertifiedZeros

/-- The wording of an obstacle. -/
def Obstacle.text : Obstacle → String
  | .notContracting => "Z0 is not below 1"
  | .negativeDiscriminant => "radii polynomial has no real roots"
  | .noInterior => "radii polynomial has no negative interior"
  | .witnessOutside => "witness band is not inside the root interval"
  | .notNegative => "p(r0) is not strictly negative"

namespace Report

open Binary64 (scientific)

/-- **The line of the verdict.** A single radius and a band of radii read differently. -/
def headline (r : Report) : String :=
  match r.verdict, r.testedAt with
  | .certified, some radii =>
    if radii.isPoint then
      "certified: a zero exists within r0 = " ++ scientific radii.hi
        ++ " of x̄ and is unique there"
    else
      "certified: a zero exists within " ++ scientific radii.lo
        ++ " of x̄ and is unique within " ++ scientific radii.hi
  | .certified, none => "certified"
  | .notCertified obstacle, _ => "not certified: " ++ obstacle.text

/-- The line of the bounds. -/
def boundsLine (b : Bounds Float) : String :=
  "  Y0 = " ++ scientific b.y0 ++ ", Z0 = " ++ scientific b.z0 ++ ", Z2 = " ++ scientific b.z2

/-- The line of the roots. -/
def rootsLine (roots : Float × Float) : String :=
  "  roots r1 = " ++ scientific roots.1 ++ ", r2 = " ++ scientific roots.2

/-- The line of the radii that were tested. -/
def radiiLine (radii : Interval) : String := "  r0 = " ++ radii.text

/-- The line of the value of the polynomial. -/
def valueLine (value : Interval) : String := "  p(r0) ⊆ " ++ value.text

/-- A line that is written only when there is something to write on it. -/
def optionalLine {α : Type} (write : α → String) : Option α → List String
  | some a => [write a]
  | none => []

/-- **The lines of a report.** -/
def lines (r : Report) : List String :=
  [r.headline, boundsLine r.bounds] ++ optionalLine rootsLine r.roots
    ++ optionalLine radiiLine r.testedAt ++ optionalLine valueLine r.value

/-- **The text of a report**, its lines apart by line breaks. -/
def text (r : Report) : String :=
  "\n".intercalate r.lines

end Report

end CertifiedZeros
