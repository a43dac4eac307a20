/-!
Integers are kept to 64 bits: a result outside the limits is refused, moved to the nearer limit or wrapped
around.
-/

namespace Typesetter

def minInteger : Int := -0x8000000000000000
def maxInteger : Int := 0x7FFFFFFFFFFFFFFF

def countLimit : Nat := 0x10000000000000000

def InRange (i : Int) : Prop := minInteger ≤ i ∧ i ≤ maxInteger

instance (i : Int) : Decidable (InRange i) := inferInstanceAs (Decidable (_ ∧ _))

def inRange? (i : Int) : Option Int := if InRange i then some i else none

/-- Arithmetic that is not checked wraps around. -/
def wrap (i : Int) : Int := i.bmod countLimit

def saturate (i : Int) : Int := max minInteger (min maxInteger i)

theorem inRange?_eq_some {i j : Int} : inRange? i = some j ↔ InRange i ∧ i = j := by
  simp [inRange?]

theorem inRange?_eq_none {i : Int} : inRange? i = none ↔ ¬ InRange i := by
  simp [inRange?]

theorem saturate_inRange (i : Int) : InRange (saturate i) := by
  simp only [InRange, saturate, minInteger, maxInteger]
  omega

end Typesetter
