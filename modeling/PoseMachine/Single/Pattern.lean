import PoseMachine.Single.Basic

/-!
Bit patterns of singles and their total order. All patterns of NaN are one value, but the order
tells them apart: those with a sign come before all numbers, the others behind.
-/

namespace PoseMachine.Single

/-- The bit pattern of a single, kept where singles are put in order. -/
structure Pattern where
  bits : UInt32
deriving Repr

namespace Pattern

def value (p : Pattern) : Float32 := .ofBits p.bits

def ofValue (x : Float32) : Pattern := ⟨x.toBits⟩

/-- Patterns are compared by value: both zeros are equal, and NaN is equal to nothing. -/
instance : BEq Pattern := ⟨fun p q => p.value == q.value⟩

/-- The place of a pattern in the total order: negative ones below positive ones, each by magnitude,
with `-0` below `0` and NaN beyond the infinity of its sign. -/
def rank (p : Pattern) : Int :=
  let b := p.bits.toNat
  if b < 0x80000000 then b else 0x7fffffff - b

def le (p q : Pattern) : Bool :=
  decide (p.rank ≤ q.rank)

theorem le_total (p q : Pattern) : (le p q || le q p) = true := by
  simp only [le, Bool.or_eq_true, decide_eq_true_eq]
  omega

theorem le_trans (p q r : Pattern) (h₁ : le p q = true) (h₂ : le q r = true) :
    le p r = true := by
  simp only [le, decide_eq_true_eq] at *
  omega

end Pattern

end PoseMachine.Single
