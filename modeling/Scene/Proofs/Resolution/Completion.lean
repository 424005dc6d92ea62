import Scene.Completion
import Scene.Proofs.Dict
import Scene.Proofs.Except

/-! What a spec supplies reaches its implementation: completing and checking leave supplied values
as they are, unless they are computed. -/
namespace Scene
variable {φ α : Type}

namespace Completion

theorem evaluate_of_not_computed (m : Meaning φ α) (typeName : String) (snapshot : Props φ α)
    (property : String) {v : Value φ α} (h : v.isComputed = false) :
    evaluate m typeName snapshot property v = .ok v := by
  cases v with
  | computed code => contradiction
  | _ => rfl

theorem evaluateAll_of_plain (m : Meaning φ α) (typeName : String) (snapshot : Props φ α)
    {props : Props φ α} (h : ∀ e ∈ props, e.2.isComputed = false) :
    evaluateAll m typeName snapshot props = .ok props := by
  induction props with
  | nil => rfl
  | cons e rest ih =>
    have hfirst := evaluate_of_not_computed m typeName snapshot e.1 (h e List.mem_cons_self)
    have hrest := ih fun f hf => h f (List.mem_cons_of_mem e hf)
    rw [evaluateAll, hfirst, hrest]
    rfl

theorem evaluateAll_cons_eq_ok {m : Meaning φ α} {typeName : String} {snapshot : Props φ α}
    {k : String} {v : Value φ α} {rest props' : Props φ α} :
    evaluateAll m typeName snapshot ((k, v) :: rest) = .ok props' ↔
      ∃ u rest', evaluate m typeName snapshot k v = .ok u ∧
        evaluateAll m typeName snapshot rest = .ok rest' ∧ (k, u) :: rest' = props' := by
  simp only [evaluateAll, bind_eq_ok, Except.ok.injEq, exists_and_left]

/-- Under each key is what the evaluation of the property gives. -/
theorem get?_evaluateAll_iff {m : Meaning φ α} {typeName : String}
    {snapshot props props' : Props φ α} (h : evaluateAll m typeName snapshot props = .ok props')
    {key : String} {u : Value φ α} : Dict.get? props' key = some u ↔
      ∃ v, Dict.get? props key = some v ∧ evaluate m typeName snapshot key v = .ok u := by
  induction props generalizing props' with
  | nil =>
    obtain rfl := Except.ok.inj h
    simp
  | cons e rest ih =>
    obtain ⟨u', rest', hu', hrest, rfl⟩ := evaluateAll_cons_eq_ok.mp h
    rw [Dict.get?, Dict.get?]
    by_cases hk : e.1 = key
    · subst hk
      simp [hu']
    · rw [if_neg hk, if_neg hk]
      exact ih hrest

theorem get?_evaluateAll {m : Meaning φ α} {typeName : String} {snapshot props props' : Props φ α}
    (h : evaluateAll m typeName snapshot props = .ok props') {key : String} {v : Value φ α}
    (hv : Dict.get? props key = some v) (hplain : v.isComputed = false) :
    Dict.get? props' key = some v :=
  (get?_evaluateAll_iff h).mpr ⟨v, hv, evaluate_of_not_computed _ _ _ _ hplain⟩

/-- A supplied value that is not computed is what the completed properties have. -/
theorem get?_complete {m : Meaning φ α} {d : Definition φ α} {props props' : Props φ α}
    (h : complete m d props = .ok props') {key : String} {v : Value φ α}
    (hv : Dict.get? props key = some v) (hplain : v.isComputed = false) :
    Dict.get? props' key = some v :=
  get?_evaluateAll h (Dict.get?_complete props d.defaults hv) hplain

end Completion
end Scene
