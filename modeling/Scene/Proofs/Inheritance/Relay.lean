import Mathlib.Data.List.Induction
import Scene.Proofs.Inheritance.Lineage
import Scene.Proofs.Resolution.Run
import Scene.Engine

/-! What the implementation of a type at the end of a chain does: the implementations that types of
the chain have of their own are called one after another, each with what came of the one before. -/
namespace Scene
open Resolve Resolution
variable {φ α : Type}

namespace Script

theorem run_bind (child anew : Resolver φ α) (s : Script φ α) (f : Visual φ α → Script φ α) :
    (s.bind f).run child anew = s.run child anew >>= fun v => (f v).run child anew := by
  funext w
  rw [Resolve.bind_run]
  induction s generalizing w with
  | finish r =>
    cases r with
    | ok v => rfl
    | error e => rfl
  | build d next ih => exact ih _ _
  | child v c next ih =>
    rw [bind, run, run, Resolve.bind_run, Resolve.bind_run]
    rcases attempt (child v c) w with _ | ⟨e | r, w'⟩
    · rfl
    · rfl
    · exact ih _ _
  | inspect next ih => exact ih _ _
  | register d next ih => exact ih _
  | remove name next ih => exact ih _ _
  | reenter v c next ih =>
    rw [bind, run, run, Resolve.bind_run, Resolve.bind_run]
    rcases attempt (anew v c) w with _ | ⟨e | r, w'⟩
    · rfl
    · rfl
    · exact ih _ _

end Script

/-- A call of an implementation: what it was handed as base, and what came of it. -/
structure Leg (φ α : Type) where
  implementation : Implementation φ
  base : Option (Visual φ α)
  result : Except (ResolveError α) (Visual φ α)

/-- Calls in a row, from one workspace to another: the first with a given base, each later one with
the result of the one before. A failure ends the row. -/
inductive Relay (call : Implementation φ → Option (Visual φ α) → Resolve φ α (Visual φ α)) :
    List (Implementation φ) → Option (Visual φ α) → Workspace φ α → List (Leg φ α) →
      Workspace φ α → Prop where
  | last {i base w r w'} (called : call i base w = some (r, w')) :
      Relay call [i] base w [⟨i, base, r⟩] w'
  | failed {i j is base w e w'} (called : call i base w = some (.error e, w')) :
      Relay call (i :: j :: is) base w [⟨i, base, .error e⟩] w'
  | passed {i j is base w v w' legs w''} (called : call i base w = some (.ok v, w'))
      (rest : Relay call (j :: is) (some v) w' legs w'') :
      Relay call (i :: j :: is) base w (⟨i, base, .ok v⟩ :: legs) w''

def Leg.HandsOn (a b : Leg φ α) : Prop := ∃ v, a.result = .ok v ∧ b.base = some v

def outcome? (legs : List (Leg φ α)) : Option (Except (ResolveError α) (Visual φ α)) :=
  legs.getLast?.map (·.result)

namespace Relay
variable {call : Implementation φ → Option (Visual φ α) → Resolve φ α (Visual φ α)}
  {own is : List (Implementation φ)} {i : Implementation φ} {base : Option (Visual φ α)}
  {w w' : Workspace φ α} {legs : List (Leg φ α)} {r : Except (ResolveError α) (Visual φ α)}

theorem head_base (h : Relay call own base w legs w') : legs.head?.map (·.base) = some base := by
  cases h <;> rfl

theorem outcome?_cons (h : Relay call own base w legs w') (leg : Leg φ α) :
    outcome? (leg :: legs) = outcome? legs := by
  cases legs with
  | nil => cases h
  | cons next legs => rw [outcome?, List.getLast?_cons_cons, outcome?]

theorem in_order (h : Relay call own base w legs w') : legs.map (·.implementation) <+: own := by
  induction h with
  | last => exact List.prefix_rfl
  | failed => exact ⟨_, rfl⟩
  | passed _ _ ih => exact (List.prefix_cons_inj _).mpr ih

theorem isChain_handsOn (h : Relay call own base w legs w') : legs.IsChain Leg.HandsOn := by
  induction h with
  | last => exact .singleton _
  | failed => exact .singleton _
  | @passed _ _ _ _ _ v _ legs _ _ hrest ih =>
    cases legs with
    | nil => exact .singleton _
    | cons leg legs =>
      have hbase : leg.base = some v := by simpa using hrest.head_base
      exact .cons_cons ⟨v, rfl, hbase⟩ ih

/-- A row ends where all are called, or with a failure. -/
theorem complete_or_failed (h : Relay call own base w legs w') :
    legs.map (·.implementation) = own ∨ ∃ e, outcome? legs = some (.error e) := by
  induction h with
  | last => exact .inl rfl
  | failed => exact .inr ⟨_, rfl⟩
  | passed _ hrest ih =>
    rcases ih with hall | ⟨e, he⟩
    · exact .inl (congrArg _ hall)
    · exact .inr ⟨e, (hrest.outcome?_cons _).trans he⟩

def fold (call : Implementation φ → Option (Visual φ α) → Resolve φ α (Visual φ α)) :
    Implementation φ → List (Implementation φ) → Option (Visual φ α) → Resolve φ α (Visual φ α)
  | i, [], base => call i base
  | i, j :: is, base => call i base >>= fun v => fold call j is (some v)

theorem fold_concat (is : List (Implementation φ)) (i j : Implementation φ)
    (base : Option (Visual φ α)) :
    fold call i (is ++ [j]) base = fold call i is base >>= fun v => call j (some v) := by
  induction is generalizing i base with
  | nil => rfl
  | cons k is ih =>
    rw [List.cons_append, fold, fold, bind_assoc]
    exact congrArg (call i base >>= ·) (funext fun v => ih k (some v))

theorem fold_eq_some :
    fold call i is base w = some (r, w') ↔
      ∃ legs, Relay call (i :: is) base w legs w' ∧ outcome? legs = some r := by
  induction is generalizing i base w with
  | nil =>
    constructor
    · intro h
      exact ⟨_, .last h, rfl⟩
    · rintro ⟨legs, hlegs, hr⟩
      cases hlegs with
      | last h =>
        obtain rfl := Option.some.inj hr
        exact h
  | cons j is ih =>
    rw [fold, bind_run]
    -- what comes of the first call decides which way the row goes on
    rcases hi : call i base w with _ | ⟨e | v, u⟩
    · refine iff_of_false nofun ?_
      rintro ⟨legs, hlegs, -⟩
      cases hlegs with
      | failed h => cases hi.symm.trans h
      | passed h => cases hi.symm.trans h
    · constructor
      · intro h
        cases h
        exact ⟨_, .failed hi, rfl⟩
      · rintro ⟨legs, hlegs, hr⟩
        cases hlegs with
        | failed h =>
          cases hi.symm.trans h
          obtain rfl := Option.some.inj hr
          rfl
        | passed h => cases hi.symm.trans h
    · dsimp only
      rw [ih]
      constructor
      · rintro ⟨legs, hlegs, hr⟩
        exact ⟨_, .passed hi hlegs, (hlegs.outcome?_cons _).trans hr⟩
      · rintro ⟨legs, hlegs, hr⟩
        cases hlegs with
        | failed h => cases hi.symm.trans h
        | passed h hrest =>
          cases hi.symm.trans h
          exact ⟨_, hrest, (hrest.outcome?_cons _).symm.trans hr⟩

end Relay

namespace Lineage
variable {ds : List (Declaration φ α)} {t : Definition φ α}

/-- The implementation of a type is the own ones of its chain, composed from the first on. -/
theorem implementation_eq (h : Lineage ds t) :
    ∃ i is, ds.filterMap (·.implementation?) = i :: is ∧
      t.implementation = is.foldl .inherited i := by
  induction h using build_induction with
  | root d t _ hbuilds =>
    have hown : d.implementation? = some t.implementation := hbuilds.implementation_eq
    exact ⟨t.implementation, [], by simp [hown], rfl⟩
  | extend ds p d t _ _ ih hbuilds =>
    obtain ⟨i, is, hds, hp⟩ := ih
    have hcomposed := hbuilds.implementation_eq
    rw [Option.map_some, hp] at hcomposed
    cases hown : d.implementation? with
    | none =>
      rw [hown] at hcomposed
      exact ⟨i, is, by simp [hds, hown], (Option.some.inj hcomposed).symm⟩
    | some own =>
      rw [hown] at hcomposed
      refine ⟨i, is ++ [own], by simp [hds, hown], ?_⟩
      rw [List.foldl_append]
      exact (Option.some.inj hcomposed).symm

end Lineage

variable [Scalar α]

def Implementation.perform (m : Meaning φ α) (props : Props φ α) (c : Context α)
    (child anew : Resolver φ α) (i : Implementation φ) (base : Option (Visual φ α)) :
    Resolve φ α (Visual φ α) :=
  (i.script m props c base).run child anew

theorem Implementation.perform_foldl_inherited (m : Meaning φ α) (props : Props φ α)
    (c : Context α) (child anew : Resolver φ α) (i : Implementation φ)
    (is : List (Implementation φ)) :
    perform m props c child anew (is.foldl .inherited i) none =
      Relay.fold (perform m props c child anew) i is none := by
  induction is using List.reverseRecOn with
  | nil => rfl
  | append_singleton is j ih =>
    rw [List.foldl_append, Relay.fold_concat, ← ih]
    exact Script.run_bind child anew _ _

/-- Where the implementation of a chain's last type is called and returns, the own implementations
of the chain were called in a row, all with the same properties and context, and the other way
round. They are called from the first type on, none twice; the first without a base, each later one
with the result of the one before. What comes of the last call is the result, and calls end early
with a failure only. -/
theorem implementation_relays {ds : List (Declaration φ α)} {t : Definition φ α}
    (h : Lineage ds t) (m : Meaning φ α) (props : Props φ α) (c : Context α)
    (child anew : Resolver φ α) :
    (∀ w r w', Implementation.perform m props c child anew t.implementation none w = some (r, w') ↔
      ∃ legs, Relay (Implementation.perform m props c child anew)
          (ds.filterMap (·.implementation?)) none w legs w' ∧ outcome? legs = some r) ∧
      ∀ w legs w', Relay (Implementation.perform m props c child anew)
          (ds.filterMap (·.implementation?)) none w legs w' →
        legs.map (·.implementation) <+: ds.filterMap (·.implementation?) ∧
          legs.head?.map (·.base) = some none ∧ legs.IsChain Leg.HandsOn ∧
          (legs.map (·.implementation) = ds.filterMap (·.implementation?) ∨
            ∃ e, outcome? legs = some (.error e)) := by
  refine ⟨fun w r w' => ?_, fun w legs w' hlegs => ?_⟩
  · obtain ⟨i, is, hown, himplementation⟩ := h.implementation_eq
    rw [himplementation, Implementation.perform_foldl_inherited, hown]
    exact Relay.fold_eq_some
  · exact ⟨hlegs.in_order, hlegs.head_base, hlegs.isChain_handsOn, hlegs.complete_or_failed⟩

def kitchen : Meaning String Exact where
  compute := fun _ _ => .ok .null
  test := fun _ _ => true
  check := fun _ _ => .ok ()
  rules := fun _ _ _ => []
  implement := fun code _ base _ =>
    .finish (.ok (.spec (.create (base.elim code fun v => v.typeName ++ ", " ++ code))))

theorem bowl_relays :
    ∃ t, Lineage [plate, dish, bowl] t ∧
      Implementation.perform kitchen [] ⟨"bowl", 0, none, none⟩ (fun _ _ => endless)
          (fun _ _ => endless) t.implementation none (.empty 0) =
        some (.ok (.spec (.create "plate, bowl")), .empty 0) := by
  obtain ⟨t, ht⟩ := exists_lineage_bowl
  have hrelays := (implementation_relays ht kitchen [] ⟨"bowl", 0, none, none⟩ (fun _ _ => endless)
    (fun _ _ => endless)).1
  exact ⟨t, ht, (hrelays _ _ _).mpr ⟨_, .passed rfl (.last rfl), rfl⟩⟩

end Scene
