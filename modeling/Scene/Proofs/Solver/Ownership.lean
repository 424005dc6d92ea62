import Mathlib.Data.List.Induction
import Scene.Scalar.Exact
import Scene.Proofs.Solver.InPlace
import Scene.Proofs.Solver.Lookup

/-! Any number of solvers side by side. A solver takes exactly the handles that it gave out since it
was last cleared, so no look-up of a variable by its number can miss. -/
namespace Scene.Solver
variable {α : Type}

structure Pool (α : Type) where
  supply : Supply
  solvers : List (Solver α)

inductive Action (α : Type) where
  | create (settings : Settings.Solving α)
  | call (i : Nat) (c : Call α)
  | clear (i : Nat)

def Action.takesNumber : Action α → Bool
  | .create _ | .clear _ => true
  | .call .. => false

section
variable [Scalar α]

def Pool.step (backend : Backend α) (p : Pool α) :
    Action α → Option (Except (Error α) Answer) × Pool α
  | .create settings =>
    let (number, supply) := p.supply.take
    (none, ⟨supply, p.solvers ++ [.create number settings]⟩)
  | .call i c =>
    match p.solvers[i]? with
    | none => (none, p)
    | some s =>
      let (answer, s') := (c.perform backend).from s
      (some answer, { p with solvers := p.solvers.set i s' })
  | .clear i =>
    match p.solvers[i]? with
    | none => (none, p)
    | some s =>
      let (number, supply) := p.supply.take
      (none, ⟨supply, p.solvers.set i (s.clear number)⟩)

def Pool.run (backend : Backend α) (actions : List (Action α)) : Pool α :=
  actions.foldl (fun p a => (p.step backend a).2) ⟨⟨0⟩, []⟩

def Pool.Gives (backend : Backend α) (p : Pool α) (a : Action α) (i : Nat) (h : Handle) : Prop :=
  ∃ c, a = .call i c ∧ (p.step backend a).1 = some (.ok (.handle h))

def GaveBefore (backend : Backend α) (actions : List (Action α)) (i : Nat) (h : Handle)
    (later : List (Action α)) : Prop :=
  ∃ earlier a, actions = earlier ++ a :: later ∧ (Pool.run backend earlier).Gives backend a i h

/-- Solver `i` gave out a handle at some time. -/
def Given (backend : Backend α) (actions : List (Action α)) (i : Nat) (h : Handle) : Prop :=
  ∃ later, GaveBefore backend actions i h later

/-- Solver `i` gave out a handle and was not cleared since. -/
def Current (backend : Backend α) (actions : List (Action α)) (i : Nat) (h : Handle) : Prop :=
  ∃ later, GaveBefore backend actions i h later ∧ .clear i ∉ later

variable {backend : Backend α} {actions : List (Action α)} {a : Action α} {i j : Nat} {h : Handle}

theorem Pool.run_concat :
    run backend (actions ++ [a]) = ((run backend actions).step backend a).2 := by
  rw [run, List.foldl_append]
  rfl

theorem gaveBefore_nil {later : List (Action α)} : ¬GaveBefore backend [] i h later := by
  rintro ⟨earlier, a, heq, -⟩
  simp at heq

theorem gaveBefore_concat {later : List (Action α)} :
    GaveBefore backend (actions ++ [a]) i h later ↔
      later = [] ∧ (Pool.run backend actions).Gives backend a i h ∨
        ∃ rest, later = rest ++ [a] ∧ GaveBefore backend actions i h rest := by
  constructor
  · rintro ⟨earlier, b, heq, hgives⟩
    rcases List.eq_nil_or_concat later with rfl | ⟨rest, b', rfl⟩
    · obtain ⟨rfl, rfl⟩ := List.append_singleton_inj.mp heq
      exact .inl ⟨rfl, hgives⟩
    · rw [List.concat_eq_append, ← List.cons_append, ← List.append_assoc] at heq
      obtain ⟨rfl, rfl⟩ := List.append_singleton_inj.mp heq
      exact .inr ⟨rest, List.concat_eq_append, earlier, b, rfl, hgives⟩
  · rintro (⟨rfl, hgives⟩ | ⟨rest, rfl, earlier, b, rfl, hgives⟩)
    · exact ⟨actions, a, rfl, hgives⟩
    · exact ⟨earlier, b, by simp, hgives⟩

theorem given_concat :
    Given backend (actions ++ [a]) i h ↔
      Given backend actions i h ∨ (Pool.run backend actions).Gives backend a i h := by
  constructor
  · rintro ⟨later, hgave⟩
    rcases gaveBefore_concat.mp hgave with ⟨-, hgives⟩ | ⟨rest, -, hgave⟩
    · exact .inr hgives
    · exact .inl ⟨rest, hgave⟩
  · rintro (⟨later, hgave⟩ | hgives)
    · exact ⟨_, gaveBefore_concat.mpr (.inr ⟨later, rfl, hgave⟩)⟩
    · exact ⟨_, gaveBefore_concat.mpr (.inl ⟨rfl, hgives⟩)⟩

theorem current_concat :
    Current backend (actions ++ [a]) i h ↔
      Current backend actions i h ∧ a ≠ .clear i ∨
        (Pool.run backend actions).Gives backend a i h := by
  constructor
  · rintro ⟨later, hgave, hkept⟩
    rcases gaveBefore_concat.mp hgave with ⟨-, hgives⟩ | ⟨rest, rfl, hrest⟩
    · exact .inr hgives
    · rw [List.mem_append, List.mem_singleton, not_or] at hkept
      exact .inl ⟨⟨rest, hrest, hkept.1⟩, Ne.symm hkept.2⟩
  · rintro (⟨⟨later, hgave, hkept⟩, ha⟩ | hgives)
    · refine ⟨_, gaveBefore_concat.mpr (.inr ⟨later, rfl, hgave⟩), ?_⟩
      rw [List.mem_append, List.mem_singleton, not_or]
      exact ⟨hkept, Ne.symm ha⟩
    · exact ⟨_, gaveBefore_concat.mpr (.inl ⟨rfl, hgives⟩), List.not_mem_nil⟩

theorem given_of_current (hcurrent : Current backend actions i h) : Given backend actions i h := by
  obtain ⟨later, hgave, -⟩ := hcurrent
  exact ⟨later, hgave⟩

/-- What the numbers in solvers and handles say about who gave out what. -/
structure Pool.Accounts (backend : Backend α) (actions : List (Action α)) (p : Pool α) : Prop where
  next : p.supply.next ≤ actions.countP Action.takesNumber
  number : ∀ (i : Nat) (s : Solver α), p.solvers[i]? = some s → s.number < p.supply.next
  apart : ∀ (i j : Nat) (s t : Solver α), p.solvers[i]? = some s → p.solvers[j]? = some t →
    s.number = t.number → i = j
  /-- Handles are given out by solvers that exist, under numbers that were taken. -/
  given : ∀ (i : Nat) (h : Handle), Given backend actions i h →
    i < p.solvers.length ∧ h.solver < p.supply.next
  /-- A handle with the number that a solver has is from that solver, which still has it. -/
  held : ∀ (i j : Nat) (s : Solver α) (h : Handle), p.solvers[i]? = some s →
    Given backend actions j h → h.solver = s.number → j = i ∧ s.owns h = true
  owned : ∀ (i : Nat) (s : Solver α) (h : Handle), p.solvers[i]? = some s →
    (s.owns h = true ↔ Current backend actions i h)
  stored : ∀ (i : Nat) (s : Solver α), p.solvers[i]? = some s →
    ∀ c ∈ s.constraints, ∀ t ∈ c.terms, s.owns t.1 = true

/-- What a call leaves of a solver: it keeps its number, and owns what it owned and what the call
gave out. -/
structure Kept (s : Solver α) (answer : Except (Error α) Answer) (s' : Solver α) : Prop where
  number : s'.number = s.number
  owns : ∀ h, s'.owns h = true ↔ s.owns h = true ∨ answer = .ok (.handle h)
  fresh : ∀ h, answer = .ok (.handle h) → h.solver = s.number ∧ s.owns h = false
  stored : (∀ c ∈ s.constraints, ∀ t ∈ c.terms, s.owns t.1 = true) →
    ∀ c ∈ s'.constraints, ∀ t ∈ c.terms, s'.owns t.1 = true

omit [Scalar α] in
theorem owns_eq_true {s : Solver α} :
    s.owns h = true ↔ h.solver = s.number ∧ h.index < s.vars.length := by
  simp [owns]

omit [Scalar α] in
theorem owns_congr {s s' : Solver α} (hnumber : s'.number = s.number)
    (hlength : s'.vars.length = s.vars.length) (h : Handle) : s'.owns h = s.owns h := by
  rw [owns, owns, hnumber, hlength]

omit [Scalar α] in
theorem owns_pushVariable {s : Solver α} {v : Variable α} :
    (s.pushVariable v).2.owns h = true ↔ s.owns h = true ∨ h = s.nextHandle := by
  have hnext : h = s.nextHandle ↔ h.solver = s.number ∧ h.index = s.vars.length := by
    cases h
    simp [nextHandle]
  have hlength : (s.pushVariable v).2.vars.length = s.vars.length + 1 := List.length_append
  rw [hnext, owns_eq_true, owns_eq_true, hlength, ← and_or_left]
  exact and_congr_right fun _ => by omega

omit [Scalar α] in
theorem Change.kept {s s' : Solver α} {answer : Except (Error α) Answer}
    (hchange : Change s answer s') : Kept s answer s' := by
  cases hchange with
  | grown v =>
    refine ⟨rfl, fun h => ?_, ?_, fun hstored c hc t ht => ?_⟩
    · have heq : (Except.ok (.handle s.nextHandle) : Except (Error α) Answer) = .ok (.handle h) ↔
          h = s.nextHandle := by
        simp [eq_comm]
      rw [owns_pushVariable, heq]
    · intro h heq
      cases heq
      simp [owns, nextHandle]
    · exact owns_pushVariable.mpr (.inl (hstored c hc t ht))
  | bound c howned =>
    have howns : ∀ h, Solver.owns { s with constraints := s.constraints ++ [c] } h = s.owns h :=
      owns_congr rfl rfl
    refine ⟨rfl, fun h => by simp [howns], fun h heq => ?_, fun hstored d hd t ht => ?_⟩
    · cases heq
    · rw [howns]
      rcases List.mem_append.mp hd with hd | hd
      · exact hstored d hd t ht
      · obtain rfl := List.mem_singleton.mp hd
        exact howned t ht
  | moved answer vars hquiet hsame =>
    have howns : ∀ h, Solver.owns { s with vars } h = s.owns h := owns_congr rfl hsame.length_eq
    refine ⟨rfl, fun h => by simp [howns, hquiet h], ?_, fun hstored c hc t ht => ?_⟩
    · intro h heq
      cases heq
      exact absurd rfl (hquiet h)
    · rw [howns]
      exact hstored c hc t ht
  | refused e =>
    refine ⟨rfl, fun h => by simp, fun h heq => ?_, fun hstored => hstored⟩
    cases heq

theorem kept_of_perform {s s' : Solver α} {c : Call α} {answer : Except (Error α) Answer}
    (hcall : (c.perform backend).from s = (answer, s')) : Kept s answer s' := by
  have hchange := change_perform backend s c
  rw [hcall] at hchange
  exact hchange.kept

namespace Pool
variable {p : Pool α}

omit [Scalar α] in
/-- What a pool holds once the solver in place `i` was replaced. -/
theorem of_getElem?_set {solvers : List (Solver α)} {s s' t : Solver α} (hs : solvers[i]? = some s)
    (ht : (solvers.set i s')[j]? = some t) : j = i ∧ t = s' ∨ j ≠ i ∧ solvers[j]? = some t := by
  have hlt : i < solvers.length := (List.getElem?_eq_some_iff.mp hs).1
  rw [List.getElem?_set, if_pos hlt] at ht
  split at ht
  · next hij => exact .inl ⟨hij.symm, (Option.some.inj ht).symm⟩
  · next hij => exact .inr ⟨Ne.symm hij, ht⟩

omit [Scalar α] in
theorem getElem?_concat_eq_some {solvers : List (Solver α)} {s t : Solver α} {i : Nat} :
    (solvers ++ [t])[i]? = some s ↔ solvers[i]? = some s ∨ i = solvers.length ∧ s = t := by
  rw [List.getElem?_append]
  split
  · next hlt => simp [Nat.ne_of_lt hlt]
  · next hge =>
    rw [List.getElem?_singleton, List.getElem?_eq_none (by omega)]
    split
    · next hzero => simp [eq_comm, show i = solvers.length by omega]
    · next hpos => simp [show i ≠ solvers.length by omega]

/-- As long as numbers are left, each is one more than the one before. -/
theorem take_of_room {supply : Supply} (hroom : supply.next + 1 < Supply.size) :
    supply.take = (supply.next, ⟨supply.next + 1⟩) := by
  rw [Supply.take, Nat.mod_eq_of_lt hroom]

theorem step_create {settings : Settings.Solving α} (hroom : p.supply.next + 1 < Supply.size) :
    (p.step backend (.create settings)).2 =
      ⟨⟨p.supply.next + 1⟩, p.solvers ++ [.create p.supply.next settings]⟩ := by
  rw [step, take_of_room hroom]

theorem step_clear {s : Solver α} (hs : p.solvers[i]? = some s)
    (hroom : p.supply.next + 1 < Supply.size) :
    (p.step backend (.clear i)).2 =
      ⟨⟨p.supply.next + 1⟩, p.solvers.set i (s.clear p.supply.next)⟩ := by
  rw [step, hs, take_of_room hroom]

theorem step_call {s : Solver α} (hs : p.solvers[i]? = some s) (c : Call α) :
    (p.step backend (.call i c)).2 =
      ⟨p.supply, p.solvers.set i ((c.perform backend).from s).2⟩ := by
  rw [step, hs]

theorem gives_iff {s : Solver α} (hs : p.solvers[i]? = some s) (c : Call α) :
    p.Gives backend (.call i c) j h ↔
      i = j ∧ ((c.perform backend).from s).1 = .ok (.handle h) := by
  have hstep : (p.step backend (.call i c)).1 = some ((c.perform backend).from s).1 := by
    rw [step, hs]
  constructor
  · rintro ⟨c', heq, hgives⟩
    cases heq
    rw [hstep] at hgives
    exact ⟨rfl, Option.some.inj hgives⟩
  · rintro ⟨rfl, hgives⟩
    exact ⟨c, rfl, by rw [hstep, hgives]⟩

theorem not_gives_create {settings : Settings.Solving α} :
    ¬p.Gives backend (.create settings) i h := nofun

theorem not_gives_clear : ¬p.Gives backend (.clear j) i h := nofun

theorem not_gives_of_none (hnone : p.solvers[i]? = none) (c : Call α) :
    ¬p.Gives backend (.call i c) j h := by
  rintro ⟨c', -, hgives⟩
  rw [step, hnone] at hgives
  cases hgives

namespace Accounts

theorem start : Accounts backend [] (run backend []) where
  next := Nat.zero_le _
  number := nofun
  apart := nofun
  given := by
    rintro i h ⟨later, hgave⟩
    exact absurd hgave gaveBefore_nil
  held := nofun
  owned := nofun
  stored := nofun

variable (haccounts : Accounts backend actions (run backend actions))
include haccounts

/-- An empty solver under a new number, which no other solver and no handle has, in place `k`. -/
theorem renew {solvers : List (Solver α)} (new : Solver α) (k : Nat)
    (hlength : (run backend actions).solvers.length ≤ solvers.length)
    (hsolvers : ∀ i s, solvers[i]? = some s →
      i = k ∧ s = new ∨ i ≠ k ∧ (run backend actions).solvers[i]? = some s)
    (hnumber : new.number = (run backend actions).supply.next) (hvars : new.vars = [])
    (hconstraints : new.constraints = []) (htakes : a.takesNumber = true)
    (hquiet : ∀ i h, ¬(run backend actions).Gives backend a i h)
    (hcurrent : ∀ i h, Current backend (actions ++ [a]) i h ↔
      Current backend actions i h ∧ i ≠ k) :
    Accounts backend (actions ++ [a]) ⟨⟨(run backend actions).supply.next + 1⟩, solvers⟩ := by
  have hgiven : ∀ i h, Given backend (actions ++ [a]) i h → Given backend actions i h := by
    intro i h hgiven
    exact (given_concat.mp hgiven).resolve_right (hquiet i h)
  constructor
  case next =>
    have hnext := haccounts.next
    rw [List.countP_append, List.countP_singleton, if_pos htakes]
    exact Nat.succ_le_succ hnext
  case number =>
    intro i s hs
    rcases hsolvers i s hs with ⟨-, rfl⟩ | ⟨-, hs⟩
    · exact hnumber ▸ Nat.lt_succ_self _
    · exact Nat.lt_succ_of_lt (haccounts.number i s hs)
  case apart =>
    intro i j s t hs ht heq
    rcases hsolvers i s hs with ⟨rfl, rfl⟩ | ⟨-, hs⟩ <;>
      rcases hsolvers j t ht with ⟨rfl, rfl⟩ | ⟨-, ht⟩
    · rfl
    · exact absurd (heq.symm.trans hnumber) (Nat.ne_of_lt (haccounts.number j t ht))
    · exact absurd (heq.trans hnumber) (Nat.ne_of_lt (haccounts.number i s hs))
    · exact haccounts.apart i j s t hs ht heq
  case given =>
    intro i h hnow
    obtain ⟨hi, hh⟩ := haccounts.given i h (hgiven i h hnow)
    exact ⟨Nat.lt_of_lt_of_le hi hlength, Nat.lt_succ_of_lt hh⟩
  case held =>
    intro i j s h hs hnow heq
    rcases hsolvers i s hs with ⟨rfl, rfl⟩ | ⟨-, hs⟩
    · exact absurd (heq.trans hnumber)
        (Nat.ne_of_lt (haccounts.given j h (hgiven j h hnow)).2)
    · exact haccounts.held i j s h hs (hgiven j h hnow) heq
  case owned =>
    intro i s h hs
    rw [hcurrent]
    rcases hsolvers i s hs with ⟨rfl, rfl⟩ | ⟨hi, hs⟩
    · exact iff_of_false (by simp [owns, hvars]) fun hkept => hkept.2 rfl
    · rw [and_iff_left hi]
      exact haccounts.owned i s h hs
  case stored =>
    intro i s hs
    rcases hsolvers i s hs with ⟨rfl, rfl⟩ | ⟨-, hs⟩
    · rw [hconstraints]
      exact List.forall_mem_nil _
    · exact haccounts.stored i s hs

theorem create (settings : Settings.Solving α)
    (hroom : (run backend actions).supply.next + 1 < Supply.size) :
    Accounts backend (actions ++ [.create settings])
      ((run backend actions).step backend (.create settings)).2 := by
  rw [step_create hroom]
  refine haccounts.renew (.create _ settings) (run backend actions).solvers.length (by simp)
    (fun i s hs => ?_) rfl rfl rfl rfl (fun _ _ => not_gives_create) fun i h => ?_
  · rcases getElem?_concat_eq_some.mp hs with hs | hnew
    · exact .inr ⟨Nat.ne_of_lt (List.getElem?_eq_some_iff.mp hs).1, hs⟩
    · exact .inl hnew
  · rw [current_concat, or_iff_left not_gives_create, and_iff_left nofun, iff_self_and]
    intro hcurrent
    exact Nat.ne_of_lt (haccounts.given i h (given_of_current hcurrent)).1

theorem clear {s : Solver α} (hs : (run backend actions).solvers[i]? = some s)
    (hroom : (run backend actions).supply.next + 1 < Supply.size) :
    Accounts backend (actions ++ [.clear i])
      ((run backend actions).step backend (.clear i)).2 := by
  rw [step_clear hs hroom]
  refine haccounts.renew (s.clear _) i (by simp) (fun j t ht => ?_) rfl rfl rfl rfl
    (fun _ _ => not_gives_clear) fun j h => ?_
  · exact of_getElem?_set hs ht
  · rw [current_concat, or_iff_left not_gives_clear]
    simp [eq_comm]

section
variable {s s' : Solver α} {c : Call α} {answer : Except (Error α) Answer}
  (hs : (run backend actions).solvers[i]? = some s)
  (hcall : (c.perform backend).from s = (answer, s'))
include hs hcall

omit haccounts in
/-- A call leaves the number of each solver. -/
theorem exists_before_call {t : Solver α}
    (ht : ((run backend actions).solvers.set i s')[j]? = some t) :
    ∃ t₀, (run backend actions).solvers[j]? = some t₀ ∧ t.number = t₀.number := by
  rcases of_getElem?_set hs ht with ⟨rfl, rfl⟩ | ⟨-, ht⟩
  · exact ⟨s, hs, (kept_of_perform hcall).number⟩
  · exact ⟨t, ht, rfl⟩

omit haccounts in
theorem given_call_iff : Given backend (actions ++ [.call i c]) j h ↔
    Given backend actions j h ∨ i = j ∧ answer = .ok (.handle h) := by
  rw [given_concat, gives_iff hs, hcall]

theorem given_call (hnow : Given backend (actions ++ [.call i c]) j h) :
    j < (run backend actions).solvers.length ∧
      h.solver < (run backend actions).supply.next := by
  rcases (given_call_iff hs hcall).mp hnow with hgiven | ⟨rfl, hanswer⟩
  · exact haccounts.given j h hgiven
  · rw [((kept_of_perform hcall).fresh h hanswer).1]
    exact ⟨(List.getElem?_eq_some_iff.mp hs).1, haccounts.number i s hs⟩

/-- The solver that was called owns what it gave out before and what it gives out now. -/
theorem held_called (hnow : Given backend (actions ++ [.call i c]) j h)
    (heq : h.solver = s'.number) : j = i ∧ s'.owns h = true := by
  have hkept := kept_of_perform hcall
  rw [hkept.number] at heq
  rcases (given_call_iff hs hcall).mp hnow with hgiven | ⟨rfl, hanswer⟩
  · obtain ⟨rfl, howned⟩ := haccounts.held i j s h hs hgiven heq
    exact ⟨rfl, (hkept.owns h).mpr (.inl howned)⟩
  · exact ⟨rfl, (hkept.owns h).mpr (.inr hanswer)⟩

/-- A new handle has the number of the solver that was called, and so of no other. -/
theorem held_beside {k : Nat} {t : Solver α} (ht : (run backend actions).solvers[k]? = some t)
    (hk : k ≠ i) (hnow : Given backend (actions ++ [.call i c]) j h)
    (heq : h.solver = t.number) : j = k ∧ t.owns h = true := by
  rcases (given_call_iff hs hcall).mp hnow with hgiven | ⟨rfl, hanswer⟩
  · exact haccounts.held k j t h ht hgiven heq
  · rw [((kept_of_perform hcall).fresh h hanswer).1] at heq
    exact absurd (haccounts.apart k i t s ht hs heq.symm) hk

theorem owned_call {t : Solver α} (ht : ((run backend actions).solvers.set i s')[j]? = some t) :
    t.owns h = true ↔ Current backend (actions ++ [.call i c]) j h := by
  rw [current_concat, gives_iff hs, hcall, and_iff_left nofun]
  rcases of_getElem?_set hs ht with ⟨rfl, rfl⟩ | ⟨hj, ht⟩
  · rw [(kept_of_perform hcall).owns, haccounts.owned j s h hs, and_iff_right rfl]
  · rw [or_iff_left fun hnew => hj hnew.1.symm]
    exact haccounts.owned j t h ht

theorem call : Accounts backend (actions ++ [.call i c])
    ((run backend actions).step backend (.call i c)).2 := by
  rw [step_call hs, hcall]
  constructor
  case next =>
    rw [List.countP_append, List.countP_singleton]
    exact haccounts.next
  case number =>
    intro j t ht
    obtain ⟨t₀, ht₀, heq⟩ := exists_before_call hs hcall ht
    exact heq ▸ haccounts.number j t₀ ht₀
  case apart =>
    intro j k t u ht hu heq
    obtain ⟨t₀, ht₀, hnumber⟩ := exists_before_call hs hcall ht
    obtain ⟨u₀, hu₀, hnumber'⟩ := exists_before_call hs hcall hu
    exact haccounts.apart j k t₀ u₀ ht₀ hu₀ (hnumber.symm.trans (heq.trans hnumber'))
  case given =>
    intro j h hnow
    rw [List.length_set]
    exact haccounts.given_call hs hcall hnow
  case held =>
    intro k j t h ht hnow heq
    rcases of_getElem?_set hs ht with ⟨rfl, rfl⟩ | ⟨hk, ht⟩
    · exact haccounts.held_called hs hcall hnow heq
    · exact haccounts.held_beside hs hcall ht hk hnow heq
  case owned =>
    intro j t h ht
    exact haccounts.owned_call hs hcall ht
  case stored =>
    intro j t ht
    rcases of_getElem?_set hs ht with ⟨rfl, rfl⟩ | ⟨-, ht⟩
    · exact (kept_of_perform hcall).stored (haccounts.stored j s hs)
    · exact haccounts.stored j t ht

end

/-- Nothing comes of an action on a solver that does not exist. -/
theorem idle (hgives : ∀ j h, ¬(run backend actions).Gives backend a j h)
    (hcleared : ∀ j h, a = .clear j → ¬Given backend actions j h) :
    Accounts backend (actions ++ [a]) (run backend actions) := by
  have hgiven : ∀ i h, Given backend (actions ++ [a]) i h → Given backend actions i h := by
    intro i h hgiven
    exact (given_concat.mp hgiven).resolve_right (hgives i h)
  refine { haccounts with next := ?_, given := ?_, held := ?_, owned := ?_ }
  · rw [List.countP_append]
    exact Nat.le_add_right_of_le haccounts.next
  · exact fun i h hnow => haccounts.given i h (hgiven i h hnow)
  · exact fun i j s h hs hnow => haccounts.held i j s h hs (hgiven j h hnow)
  · intro i s h hs
    rw [current_concat, or_iff_left (hgives i h), haccounts.owned i s h hs, iff_self_and]
    exact fun hcurrent hclear => hcleared i h hclear (given_of_current hcurrent)

/-- What every action keeps. -/
theorem step (hroom : (actions ++ [a]).countP Action.takesNumber < Supply.size) :
    Accounts backend (actions ++ [a]) ((run backend actions).step backend a).2 := by
  have hnext := haccounts.next
  rw [List.countP_append, List.countP_singleton] at hroom
  cases a with
  | create settings =>
    exact haccounts.create settings (by simp [Action.takesNumber] at hroom; omega)
  | call i c =>
    cases hs : (run backend actions).solvers[i]? with
    | some s => exact haccounts.call hs rfl
    | none =>
      have hstep : ((run backend actions).step backend (.call i c)).2 = run backend actions := by
        rw [Pool.step, hs]
      rw [hstep]
      exact haccounts.idle (fun j h => not_gives_of_none hs c) nofun
  | clear i =>
    cases hs : (run backend actions).solvers[i]? with
    | some s => exact haccounts.clear hs (by simp [Action.takesNumber] at hroom; omega)
    | none =>
      have hstep : ((run backend actions).step backend (.clear i)).2 = run backend actions := by
        rw [Pool.step, hs]
      rw [hstep]
      refine haccounts.idle (fun j h => not_gives_clear) fun j h heq hgiven => ?_
      cases heq
      have hlt := (haccounts.given i h hgiven).1
      rw [List.getElem?_eq_none_iff] at hs
      omega

end Accounts

theorem accounts (backend : Backend α) (actions : List (Action α))
    (hroom : actions.countP Action.takesNumber < Supply.size) :
    Accounts backend actions (run backend actions) := by
  induction actions using List.reverseRec with
  | nil => exact Accounts.start
  | append_singleton actions a ih =>
    have hbefore : actions.countP Action.takesNumber < Supply.size := by
      rw [List.countP_append] at hroom
      omega
    rw [run_concat]
    exact (ih hbefore).step hroom

/-- A handle that is given out is a new one. -/
theorem fresh_of_gives (haccounts : Accounts backend actions (run backend actions))
    (hgives : (run backend actions).Gives backend a i h) : ¬Given backend actions j h := by
  obtain ⟨c, rfl, hanswer⟩ := hgives
  cases hs : (run backend actions).solvers[i]? with
  | none => exact absurd ⟨c, rfl, hanswer⟩ (not_gives_of_none hs c)
  | some s =>
    obtain ⟨-, hanswer⟩ := (gives_iff hs c).mp ⟨c, rfl, hanswer⟩
    obtain ⟨hnumber, hnew⟩ := (change_perform backend s c).kept.fresh h hanswer
    intro hgiven
    rw [(haccounts.held i j s h hs hgiven hnumber).2] at hnew
    cases hnew

theorem unchanged_of_error {c : Call α} {e : Error α}
    (herror : (p.step backend (.call i c)).1 = some (.error e)) :
    (p.step backend (.call i c)).2 = p := by
  cases hs : p.solvers[i]? with
  | none => rw [step, hs]
  | some s =>
    rw [step_call hs]
    have hchange := change_perform backend s c
    have hanswer : ((c.perform backend).from s).1 = .error e := by
      rw [step, hs] at herror
      exact Option.some.inj herror
    rw [hanswer] at hchange
    have hs' : ((c.perform backend).from s).2 = s := by
      generalize ((c.perform backend).from s).2 = s' at hchange
      cases hchange
      rfl
    obtain ⟨hlt, hget⟩ := List.getElem?_eq_some_iff.mp hs
    rw [hs', ← hget, List.set_getElem_self]

end Pool

/-- The handles that a solver takes. -/
structure Takes (s : Solver α) (own : Handle → Prop) : Prop where
  value : ∀ h, (s.value? h).isSome = true ↔ own h
  setValue : ∀ h x, s.setValue? h x ≠ .error (.unknownVariable h) ↔ own h
  addConstraint : ∀ c, (∃ s', s.addConstraint? c = .ok s') ↔ ∀ t ∈ c.terms, own t.1

/-- Whoever looks a variable up by its number finds one. -/
structure InRange (s : Solver α) : Prop where
  terms : ∀ c ∈ s.constraints, ∀ t ∈ c.terms, ∃ v, s.vars[t.1.index]? = some v
  isSatisfied : isSatisfied? s = some s.isSatisfied
  relax : ∀ c ∈ s.constraints, relax? s.vars c = some (Solver.relax s.vars c)
  solve : solve? s = some s.solve
  hard : ∀ r ∈ (Exact.pose s.vars s.constraints).hard, r.Over s.vars.length
  soft : ∀ r ∈ (Exact.pose s.vars s.constraints).soft, r.1.Over s.vars.length

theorem takes_owns (s : Solver α) : s.Takes fun h => s.owns h = true where
  value h := by
    rw [value?, lookup?]
    split
    · next howns =>
      simp [howns, (owns_eq_true.mp howns).2]
    · next howns => simp [howns]
  setValue h x := by
    rw [setValue?, checkOwned]
    split
    · next howns =>
      rw [ok_bind]
      split <;> simp [howns]
    · next howns => simp [howns, bind, Except.bind]
  addConstraint c := by
    constructor
    · rintro ⟨s', hadd⟩
      exact (addConstraint?_eq_ok hadd).2
    · intro howned
      have hchecked : (c.terms.forM fun t => s.checkOwned t.1) = .ok () :=
        forM_eq_ok.mpr fun t ht => checkOwned_eq_ok.mpr (howned t ht)
      exact ⟨_, by rw [addConstraint?, hchecked, ok_bind]⟩

theorem inRange_of_owned {s : Solver α}
    (howned : ∀ c ∈ s.constraints, ∀ t ∈ c.terms, s.owns t.1 = true) : s.InRange := by
  have hover : ∀ c ∈ s.constraints, c.Over s.vars.length := fun c hc t ht =>
    (owns_eq_true.mp (howned c hc t ht)).2
  exact {
    terms := fun c hc t ht => ⟨_, List.getElem?_eq_getElem (hover c hc t ht)⟩
    isSatisfied := isSatisfied?_eq hover
    relax := fun c hc => relax?_eq (hover c hc)
    solve := solve?_eq hover
    hard := (Exact.pose_over hover).1
    soft := (Exact.pose_over hover).2 }

/-- As long as the numbers do not run out, every handle is given out once, by one solver, and taken
by this solver until it is cleared, and by no other. All look-ups by number are in range, and a
call that fails changes no solver. -/
theorem handles_not_confused (backend : Backend α) (actions : List (Action α))
    (hnumbers : actions.countP Action.takesNumber < Supply.size) :
    (∀ (a : Action α) (i j : Nat) (h : Handle),
      (Pool.run backend actions).Gives backend a i h → ¬Given backend actions j h) ∧
    (∀ (i : Nat) (s : Solver α), (Pool.run backend actions).solvers[i]? = some s →
      s.Takes (Current backend actions i) ∧
        (∀ c ∈ s.constraints, ∀ t ∈ c.terms, Current backend actions i t.1) ∧ s.InRange) ∧
    ∀ (i : Nat) (c : Call α) (e : Error α),
      ((Pool.run backend actions).step backend (.call i c)).1 = some (.error e) →
      ((Pool.run backend actions).step backend (.call i c)).2 = Pool.run backend actions := by
  have haccounts := Pool.accounts backend actions hnumbers
  refine ⟨fun a i j h hgives => Pool.fresh_of_gives haccounts hgives, fun i s hs => ?_,
    fun i c e => Pool.unchanged_of_error⟩
  have hcurrent : (fun h => s.owns h = true) = Current backend actions i :=
    funext fun h => propext (haccounts.owned i s h hs)
  refine ⟨hcurrent ▸ s.takes_owns, fun c hc t ht => ?_, inRange_of_owned (haccounts.stored i s hs)⟩
  exact (haccounts.owned i s t.1 hs).mp (haccounts.stored i s hs c hc t ht)

end

def begunAnew : List (Action Exact) :=
  [.create .standard, .create .standard, .call 0 (.createVariable "x" Scalar.zero),
    .call 1 (.createVariable "x" Scalar.zero), .clear 0, .call 0 (.createVariable "x" Scalar.zero)]

theorem begunAnew_handles :
    begunAnew.countP Action.takesNumber < Supply.size ∧
      Current (fun _ _ => .ok []) begunAnew 0 ⟨2, 0⟩ ∧
      ¬Current (fun _ _ => .ok []) begunAnew 0 ⟨0, 0⟩ ∧
      ¬Current (fun _ _ => .ok []) begunAnew 1 ⟨0, 0⟩ := by
  have hnumbers : begunAnew.countP Action.takesNumber < Supply.size := by decide
  obtain ⟨-, hsolvers, -⟩ := handles_not_confused (fun _ _ => .ok []) begunAnew hnumbers
  have hfirst := (hsolvers 0 _ rfl).1.value
  have hsecond := (hsolvers 1 _ rfl).1.value
  exact ⟨hnumbers, (hfirst ⟨2, 0⟩).mp rfl, fun h => Bool.noConfusion ((hfirst ⟨0, 0⟩).mpr h),
    fun h => Bool.noConfusion ((hsecond ⟨0, 0⟩).mpr h)⟩

end Scene.Solver
