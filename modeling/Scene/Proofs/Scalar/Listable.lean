import Scene.Scalar.Double
import Scene.Scalar.Exact
import Mathlib.Tactic.Common

/-! Numbers whose texts hold no comma: written one after the other with commas between, they can be
told apart. -/
namespace Scene

class Scalar.Listable (α : Type) [Scalar α] : Prop where
  comma_not_mem (x : α) : ',' ∉ (Scalar.text x).toList

theorem comma_not_mem_append {s t : String} (hs : ',' ∉ s.toList) (ht : ',' ∉ t.toList) :
    ',' ∉ (s ++ t).toList := by
  rw [String.toList_append, List.mem_append, not_or]
  exact ⟨hs, ht⟩

theorem comma_not_mem_repr (n : Nat) : ',' ∉ n.repr.toList := by
  rw [Nat.toList_repr]
  intro h
  have hdigit : (',').isDigit = true := Nat.isDigit_of_mem_toDigits (by decide) (by decide) h
  contradiction

namespace Exact

theorem comma_not_mem_toString (n : Int) : ',' ∉ (toString n).toList := by
  cases n with
  | ofNat n => exact comma_not_mem_repr n
  | negSucc n =>
    have hsign : toString (Int.negSucc n) = "-" ++ (n + 1).repr := rfl
    rw [hsign]
    exact comma_not_mem_append (by decide) (comma_not_mem_repr (n + 1))

instance : Scalar.Listable Exact where
  comma_not_mem x := by
    change ',' ∉ x.text.toList
    cases x with
    | fin q =>
      rw [text]
      split
      · exact comma_not_mem_toString q.num
      · have hquotient : s!"{q.num}/{q.den}" = toString q.num ++ "/" ++ q.den.repr := rfl
        rw [hquotient]
        exact comma_not_mem_append
          (comma_not_mem_append (comma_not_mem_toString q.num) (by decide))
          (comma_not_mem_repr q.den)
    | _ => decide

end Exact

namespace Decimal

theorem comma_not_mem_zeros (n : Nat) : ',' ∉ (zeros n).toList := by
  rw [zeros, String.pushn_eq_repeat_push]
  induction n with
  | zero => decide
  | succ n ih => simpa [Nat.repeat] using ih

namespace Layout

theorem comma_not_mem_plain (l : Layout) (d : Digits) : ',' ∉ (l.plain d).toList := by
  have hdigits := comma_not_mem_repr d.digits
  rw [plain]
  split
  · refine comma_not_mem_append (comma_not_mem_append hdigits (comma_not_mem_zeros _)) ?_
    split <;> decide
  · split
    · refine comma_not_mem_append (comma_not_mem_append ?_ (by decide)) ?_
      · rw [String.toList_ofList]
        exact fun h => hdigits (List.mem_of_mem_take h)
      · rw [String.toList_ofList]
        exact fun h => hdigits (List.mem_of_mem_drop h)
    · exact comma_not_mem_append (comma_not_mem_append (by decide) (comma_not_mem_zeros _)) hdigits

theorem comma_not_mem_display (x : Float) : ',' ∉ (display.write x).toList := by
  rw [write]
  split
  · refine comma_not_mem_append (by split <;> decide) ?_
    rw [magnitudeText]
    split
    · decide
    · exact comma_not_mem_plain _ _
  · split
    · decide
    · split <;> decide

end Layout
end Decimal

instance : Scalar.Listable Float where
  comma_not_mem := Decimal.Layout.comma_not_mem_display

end Scene
