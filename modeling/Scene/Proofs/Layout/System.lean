import Scene.Layout
import Scene.Proofs.Except
import Scene.Proofs.Solver.Frame

/-! Systems built from rules. Names differ, constraints speak of variables that exist, and none of it
depends on the settings of the solver. -/
namespace Scene
variable {α : Type}

/-- No two variables have one name, and every constraint is over variables of the solver. -/
structure Solver.WellFormed (s : Solver α) : Prop where
  names : (s.vars.map (·.name)).Nodup
  owned : ∀ c ∈ s.constraints, ∀ t ∈ c.terms, s.owns t.1 = true

namespace Solver

theorem find?_eq_none {s : Solver α} {name : String} :
    s.find? name = none ↔ name ∉ s.vars.map (·.name) := by
  simp [find?]

theorem WellFormed.pushVariable {s : Solver α} (h : s.WellFormed) {v : Variable α}
    (hv : s.find? v.name = none) : (s.pushVariable v).2.WellFormed where
  names := by
    rw [find?_eq_none] at hv
    have hdisjoint : ∀ n ∈ s.vars.map (·.name), n ≠ v.name := fun n hn he => hv (he ▸ hn)
    simpa [Solver.pushVariable, List.nodup_append, h.names] using hdisjoint
  owned := by
    intro c hc t ht
    have ho := h.owned c hc t ht
    simp only [owns, Bool.and_eq_true, decide_eq_true_eq] at ho
    simp [owns, Solver.pushVariable, ho.1]
    omega

theorem checkOwned_eq_ok {s : Solver α} {x : Handle} {u : Unit} :
    s.checkOwned x = .ok u ↔ s.owns x = true := by
  by_cases h : s.owns x = true <;> simp [checkOwned, h]

theorem addConstraint?_eq_ok {s s' : Solver α} {c : Constraint α}
    (h : s.addConstraint? c = .ok s') :
    s' = { s with constraints := s.constraints ++ [c] } ∧ ∀ t ∈ c.terms, s.owns t.1 = true := by
  rw [addConstraint?, bind_eq_ok] at h
  obtain ⟨_, hc, h⟩ := h
  cases h
  exact ⟨rfl, fun t ht => checkOwned_eq_ok.mp (forM_eq_ok.mp hc t ht)⟩

theorem WellFormed.addConstraint {s s' : Solver α} (h : s.WellFormed) {c : Constraint α}
    (hs : s.addConstraint? c = .ok s') : s'.WellFormed := by
  obtain ⟨rfl, hc⟩ := addConstraint?_eq_ok hs
  refine ⟨h.names, ?_⟩
  intro d hd
  rcases List.mem_append.mp hd with hd | hd
  · exact h.owned d hd
  · obtain rfl := List.mem_singleton.mp hd
    exact hc

section
variable [Scalar α]

theorem Constraint.make?_eq_ok {kind : Kind} {handles : List Handle} {coefficients : List α}
    {constant strength : α} {c : Constraint α}
    (h : make? kind handles coefficients constant strength = .ok c) :
    c = ⟨kind, handles.zip coefficients, constant, strength⟩ := by
  unfold make? at h
  repeat' split at h
  all_goals cases h
  rfl

theorem createBounded?_eq_ok {s : Solver α} {name : String} {value min max : α}
    {r : Handle × Solver α} (h : s.createBounded? name value min max = .ok r) :
    r = s.pushVariable (.create name value min max) := by
  unfold createBounded? at h
  split at h
  · cases h
  · split at h
    · cases h
    · cases h
      rfl

theorem setValue?_eq_ok {s s' : Solver α} {x : Handle} {value : α}
    (h : s.setValue? x value = .ok s') :
    s' = { s with vars := s.vars.modify x.index (·.setValue value) } := by
  rw [setValue?, bind_eq_ok] at h
  obtain ⟨_, _, h⟩ := h
  split at h
  · cases h
  · cases h
    rfl

theorem isNaN_of_setValue? {s s' : Solver α} {h : Handle} {x : α}
    (hs : s.setValue? h x = .ok s') : Scalar.isNaN x = false := by
  obtain ⟨_, -, hs⟩ := bind_eq_ok.mp hs
  split at hs
  · cases hs
  · next hx => exact Bool.of_not_eq_true hx

theorem isNaN_of_createBounded? {s : Solver α} {name : String} {value min max : α}
    {r : Handle × Solver α} (h : s.createBounded? name value min max = .ok r) :
    Scalar.isNaN value = false := by
  unfold createBounded? at h
  split at h
  · cases h
  · split at h
    · cases h
    · next hvalue => exact Bool.of_not_eq_true hvalue

theorem WellFormed.setValue {s s' : Solver α} (h : s.WellFormed) {x : Handle} {value : α}
    (hs : s.setValue? x value = .ok s') : s'.WellFormed := by
  have hsame := SameButValues.modify s.vars x.index (·.setValue value)
    fun v => fixedPart_setValue v value
  rw [setValue?_eq_ok hs]
  constructor
  · simpa only [hsame.names] using h.names
  · simpa [owns] using h.owned

end
end Solver

namespace Layout
open Solver
variable [Scalar α]

/-- A property of solvers that stands the changes which rules make. -/
structure Kept (P : Solver α → Prop) : Prop where
  create {s : Solver α} (hs : P s) {name : String} (hnew : s.find? name = none) :
    P (s.createVariable name Scalar.zero).2
  bounded {s : Solver α} (hs : P s) {name : String} (hnew : s.find? name = none)
    {value min max : α} {r : Handle × Solver α}
    (h : s.createBounded? name value min max = .ok r) : P r.2
  move {s s' : Solver α} (hs : P s) {x : Handle} {value : α} (h : s.setValue? x value = .ok s') :
    P s'
  constrain {s s' : Solver α} (hs : P s) {kind : Kind} {handles : List Handle}
    {coefficients : List α} {constant strength : α} {c : Constraint α}
    (hmake : Constraint.make? kind handles coefficients constant strength = .ok c)
    (h : s.addConstraint? c = .ok s') : P s'

namespace Kept
variable {P : Solver α → Prop} (hP : Kept P)
include hP

theorem findOrCreate {s : Solver α} (hs : P s) (name : String) : P (findOrCreate s name).2 := by
  unfold Layout.findOrCreate
  split
  · exact hs
  · next hnew => exact hP.create hs hnew

theorem findAll {s : Solver α} (hs : P s) (names : List String) : P (findAll s names).2 := by
  induction names generalizing s with
  | nil => exact hs
  | cons name names ih => exact ih (hP.findOrCreate hs name)

theorem pin {s s' : System α} (hs : P s.solver) {name : String} {value strength : α}
    (h : s.pin name value strength = .ok s') : P s'.solver := by
  simp only [System.pin, bind_eq_ok] at h
  obtain ⟨c, hmake, solver, hadd, h⟩ := h
  cases h
  exact hP.constrain (hP.findOrCreate hs name) hmake hadd

theorem declare {s s' : System α} (hs : P s.solver) {name : String} {value : α}
    {min max : Option α} (h : s.declare name value min max = .ok s') : P s'.solver := by
  cases hfind : s.solver.find? name with
  | some x =>
    simp only [System.declare, hfind, bind_eq_ok] at h
    obtain ⟨solver, hset, h⟩ := h
    cases h
    exact hP.move hs hset
  | none =>
    simp only [System.declare, hfind, bind_eq_ok] at h
    obtain ⟨r, hr, solver, hsolver, h⟩ := h
    cases hsolver
    cases h
    exact hP.bounded hs hfind hr

/-- One rule at a time. -/
theorem add (enclosing : Option (Container α)) (fallback : α × α) {s s' : System α}
    (hs : P s.solver) {rule : Rule α} (h : s.add enclosing fallback rule = .ok s') :
    P s'.solver := by
  cases rule with
  | fit own =>
    simp only [System.add, bind_eq_ok] at h
    obtain ⟨m, hwidth, hheight⟩ := h
    exact hP.pin (hP.pin hs hwidth) hheight
  | declare name value min max => exact hP.declare hs h
  | fixed name value strength => exact hP.pin hs h
  | linear kind terms constant strength =>
    simp only [System.add, bind_eq_ok] at h
    obtain ⟨c, hmake, solver, hadd, h⟩ := h
    cases h
    exact hP.constrain (hP.findAll hs _) hmake hadd

theorem ofRules {rules : List (Rule α)} {enclosing : Option (Container α)}
    {settings : Settings.Resolving α} {s : System α}
    (hstart : P (System.start settings.solving).solver)
    (h : System.ofRules rules enclosing settings = .ok s) : P s.solver :=
  foldlM_keeps (fun s => P s.solver)
    (fun _ _ _ hs hadd => hP.add enclosing settings.container hs hadd) rules hstart h

end Kept

theorem wellFormed_kept : Kept (fun s : Solver α => s.WellFormed) where
  create hs _ hnew := hs.pushVariable hnew
  bounded hs _ hnew _ _ _ _ h := createBounded?_eq_ok h ▸ hs.pushVariable hnew
  move hs _ _ h := hs.setValue h
  constrain hs _ _ _ _ _ _ _ h := hs.addConstraint h

namespace System

theorem start_wellFormed (settings : Settings.Solving α) :
    (start settings).solver.WellFormed where
  names := by simp [start, create, createVariable, pushVariable, Variable.create]
  owned := by simp [start, create, createVariable, pushVariable]

theorem ofRules_wellFormed {rules : List (Rule α)} {enclosing : Option (Container α)}
    {settings : Settings.Resolving α} {s : System α}
    (h : ofRules rules enclosing settings = .ok s) : s.solver.WellFormed :=
  wellFormed_kept.ofRules (start_wellFormed settings.solving) h

end System

/-! A system is the same under any settings. -/

def underSettings (x : Settings.Solving α) (s : Solver α) : Solver α := { s with settings := x }

def System.underSettings (x : Settings.Solving α) (s : System α) : System α :=
  { s with solver := Layout.underSettings x s.solver }

variable (x : Settings.Solving α)

theorem findOrCreate_underSettings (s : Solver α) (name : String) :
    findOrCreate (underSettings x s) name =
      ((findOrCreate s name).1, underSettings x (findOrCreate s name).2) := by
  have hf : (underSettings x s).find? name = s.find? name := rfl
  rw [findOrCreate, hf, findOrCreate]
  cases s.find? name <;> rfl

theorem findAll_underSettings (s : Solver α) (names : List String) :
    findAll (underSettings x s) names =
      ((findAll s names).1, underSettings x (findAll s names).2) := by
  induction names generalizing s with
  | nil => rfl
  | cons name names ih => simp only [findAll, findOrCreate_underSettings, ih]

omit [Scalar α] in
theorem addConstraint?_underSettings (s : Solver α) (c : Constraint α) :
    (underSettings x s).addConstraint? c = (s.addConstraint? c).map (underSettings x) := by
  have hc : (underSettings x s).checkOwned = s.checkOwned := rfl
  simp only [addConstraint?, hc]
  cases c.terms.forM fun t => s.checkOwned t.1 <;> rfl

theorem createBounded?_underSettings (s : Solver α) (name : String) (value min max : α) :
    (underSettings x s).createBounded? name value min max =
      (s.createBounded? name value min max).map fun r => (r.1, underSettings x r.2) := by
  simp only [createBounded?]
  split
  · rfl
  · split <;> rfl

theorem setValue?_underSettings (s : Solver α) (h : Handle) (value : α) :
    (underSettings x s).setValue? h value = (s.setValue? h value).map (underSettings x) := by
  have hc : (underSettings x s).checkOwned h = s.checkOwned h := rfl
  simp only [setValue?, hc]
  cases s.checkOwned h with
  | error e => rfl
  | ok u =>
    simp only [bind, Except.bind]
    split <;> rfl

namespace System

theorem pin_underSettings (s : System α) (name : String) (value strength : α) :
    (s.underSettings x).pin name value strength =
      (s.pin name value strength).map (underSettings x) := by
  simp only [pin, underSettings, findOrCreate_underSettings]
  cases Constraint.make? .fixed [(findOrCreate s.solver name).1] [Scalar.one] value strength with
  | error e => rfl
  | ok c =>
    simp only [bind, Except.bind, addConstraint?_underSettings]
    cases (findOrCreate s.solver name).2.addConstraint? c <;> rfl

theorem declare_underSettings (s : System α) (name : String) (value : α) (min max : Option α) :
    (s.underSettings x).declare name value min max =
      (s.declare name value min max).map (underSettings x) := by
  have hf : (Layout.underSettings x s.solver).find? name = s.solver.find? name := rfl
  simp only [declare, underSettings, hf]
  cases s.solver.find? name with
  | some h =>
    simp only [bind, Except.bind, setValue?_underSettings]
    cases s.solver.setValue? h value <;> rfl
  | none =>
    simp only [bind, Except.bind, createBounded?_underSettings]
    cases s.solver.createBounded? name value (min.getD Scalar.negInf)
      (max.getD Scalar.posInf) <;> rfl

omit [Scalar α] in
theorem foldl_mention_underSettings (s : System α) (terms : List (String × α)) :
    terms.foldl (fun s t => s.mention t.1) (s.underSettings x) =
      (terms.foldl (fun s t => s.mention t.1) s).underSettings x := by
  induction terms generalizing s with
  | nil => rfl
  | cons t terms ih => exact ih (s.mention t.1)

theorem add_underSettings (enclosing : Option (Container α)) (fallback : α × α) (s : System α)
    (rule : Rule α) :
    (s.underSettings x).add enclosing fallback rule =
      (s.add enclosing fallback rule).map (underSettings x) := by
  cases rule with
  | fit own =>
    simp only [add, bind, Except.bind, pin_underSettings]
    cases s.pin "width" (pickSize own enclosing fallback).1 Scalar.one with
    | error e => rfl
    | ok m => exact pin_underSettings x m _ _ _
  | declare name value min max => exact declare_underSettings x s name value min max
  | fixed name value strength => exact pin_underSettings x s name value strength
  | linear kind terms constant strength =>
    simp only [add, foldl_mention_underSettings]
    simp only [underSettings, findAll_underSettings]
    cases Constraint.make? kind (findAll s.solver (terms.map (·.1))).1 (terms.map (·.2)) constant
      strength with
    | error e => rfl
    | ok c =>
      simp only [bind, Except.bind, addConstraint?_underSettings]
      cases (findAll s.solver (terms.map (·.1))).2.addConstraint? c <;> rfl

/-- Rules make the same system whatever the solver is told to do with it. -/
theorem ofRules_underSettings (rules : List (Rule α)) (enclosing : Option (Container α))
    (settings : Settings.Resolving α) :
    ofRules rules enclosing { settings with solving := x } =
      (ofRules rules enclosing settings).map (underSettings x) :=
  foldlM_map (underSettings x) (add_underSettings x enclosing settings.container) rules
    (start settings.solving)

end System
end Layout
end Scene
