/-! Reading a text from its front. -/
namespace Scene.Text

abbrev Rest := List Char

abbrev Reader (β : Type) := Rest → Option (β × Rest)

def expect : List Char → Rest → Option Rest
  | [], cs => some cs
  | w :: ws, c :: cs => if w = c then expect ws cs else none
  | _ :: _, [] => none

def hexValue? (c : Char) : Option Nat :=
  if '0' ≤ c ∧ c ≤ '9' then some (c.toNat - 48)
  else if 'a' ≤ c ∧ c ≤ 'f' then some (c.toNat - 87)
  else if 'A' ≤ c ∧ c ≤ 'F' then some (c.toNat - 55)
  else none

def hexNumber? : (digits : Nat) → (read : Nat) → Reader Nat
  | 0, n, cs => some (n, cs)
  | digits + 1, n, c :: cs => do hexNumber? digits (16 * n + (← hexValue? c)) cs
  | _ + 1, _, [] => none

end Scene.Text
