import Scene.Scalar
import Scene.Decimal.Layout

/-! Doubles as the numbers of a scene. -/
namespace Scene.Double
open Decimal

/-- All doubles in one line by their bits: negative ones run backwards below the others. -/
def rank (x : Float) : Int :=
  let bits := x.toBits.toNat
  if bits < Nat.pow 2 63 then bits else -((bits : Int) - Nat.pow 2 63) - 1

def toRat? (x : Float) : Option Rat :=
  (Binary.ofFloat? x).map fun b => if bitSign x.toBits then -b.toRat else b.toRat

instance : Scalar Float where
  decLt _ _ := inferInstance
  decLe _ _ := inferInstance
  zero := 0.0
  negZero := -0.0
  one := 1.0
  posInf := 1.0 / 0.0
  negInf := -1.0 / 0.0
  abs := Float.abs
  isNaN := Float.isNaN
  isFinite := Float.isFinite
  compareAll := compareOn rank
  compareAll_trans := inferInstance
  toRat? := toRat?
  ofRat := floatOfRat
  text := Layout.display.write

end Scene.Double
