import Scene.Proofs.Layout.Fallback

/-! The variables that every system has. Rules add variables and take none away, so what is solved
always has a value for the four that a system starts with. -/
namespace Scene
variable {α : Type} [Scalar α]

namespace Layout
open Solver

def variableNames (s : Solver α) : List String := s.vars.map (·.name)

omit [Scalar α] in
theorem variableNames_pushVariable (s : Solver α) (v : Variable α) :
    variableNames s <+: variableNames (s.pushVariable v).2 := by
  simp [variableNames, pushVariable]

omit [Scalar α] in
theorem variableNames_addConstraint {s s' : Solver α} {c : Constraint α}
    (h : s.addConstraint? c = .ok s') : variableNames s' = variableNames s := by
  rw [(addConstraint?_eq_ok h).1]
  rfl

theorem variableNames_setValue {s s' : Solver α} {x : Handle} {value : α}
    (h : s.setValue? x value = .ok s') : variableNames s' = variableNames s := by
  rw [setValue?_eq_ok h]
  exact (SameButValues.modify s.vars x.index (·.setValue value)
    fun v => fixedPart_setValue v value).names

/-- Names that are there stay, in their places. -/
theorem variableNames_kept (names : List String) :
    Kept (fun s : Solver α => names <+: variableNames s) where
  create hs _ _ := hs.trans (variableNames_pushVariable _ _)
  bounded hs _ _ _ _ _ _ h :=
    hs.trans (createBounded?_eq_ok h ▸ variableNames_pushVariable _ _)
  move hs _ _ h := variableNames_setValue h ▸ hs
  constrain hs _ _ _ _ _ _ _ h := variableNames_addConstraint h ▸ hs

theorem System.variableNames_ofRules {rules : List (Rule α)} {enclosing : Option (Container α)}
    {settings : Settings.Resolving α} {s : System α}
    (h : ofRules rules enclosing settings = .ok s) :
    ["x", "y", "width", "height"] <+: variableNames s.solver :=
  (variableNames_kept _).ofRules List.prefix_rfl h

/-- Whatever the rules are, the position and the size have values in the solution. -/
theorem exists_get?_of_solve {backend : Backend α} {rules : List (Rule α)}
    {enclosing : Option (Container α)} {settings : Settings.Resolving α} {o : Outcome α}
    (h : solve backend rules enclosing settings = .ok o) {name : String}
    (hname : name ∈ ["x", "y", "width", "height"]) :
    ∃ value, o.solution.get? name = some value := by
  obtain ⟨system, hsystem, rfl⟩ := solve_eq_ok.mp h
  obtain ⟨v, hv, rfl⟩ := List.mem_map.mp ((System.variableNames_ofRules hsystem).subset hname)
  obtain ⟨i, hi⟩ := List.mem_iff_getElem?.mp hv
  obtain ⟨u, -, hget⟩ := get?_outcome_of_settles (System.ofRules_wellFormed hsystem)
    (settle_settles backend system.solver) hi
  exact ⟨u.value, hget⟩

end Layout
end Scene
