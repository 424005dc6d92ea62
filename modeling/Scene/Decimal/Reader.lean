import Scene.Decimal.Numeral
import Scene.Scalar.Double
import Scene.Text.Reader

/-! Doubles as a person types them: digits with at most one point among or around them, an exponent
if wanted, or a name for what is no finite number. -/
namespace Scene.Decimal
open Text

def fractionDigits : Rest → List Nat × Rest
  | '.' :: cs => takeDigits cs
  | cs => ([], cs)

def endingExponent? : Rest → Option Int
  | [] => some 0
  | c :: cs =>
    if c = 'e' ∨ c = 'E' then
      let (negative, cs) : Bool × Rest := match cs with
        | '-' :: cs => (true, cs)
        | '+' :: cs => (false, cs)
        | cs => (false, cs)
      match takeDigits cs with
      | (d :: ds, []) =>
        let n : Int := ofDigits (d :: ds)
        some (if negative then -n else n)
      | _ => none
    else none

def unsigned? (negative : Bool) (cs : Rest) : Option Float := do
  let name := String.ofList (cs.map Char.toLower)
  if name = "inf" ∨ name = "infinity" then some (if negative then Scalar.negInf else Scalar.posInf)
  else if name = "nan" then some (0.0 / 0.0)
  else
    let (ds, cs) := takeDigits cs
    let (places, cs) := fractionDigits cs
    if ds.isEmpty && places.isEmpty then none
    else some (nearest negative (ofDigits (ds ++ places)) ((← endingExponent? cs) - places.length))

def read? (s : String) : Option Float :=
  match s.toList with
  | '-' :: cs => unsigned? true cs
  | '+' :: cs => unsigned? false cs
  | cs => unsigned? false cs

end Scene.Decimal
