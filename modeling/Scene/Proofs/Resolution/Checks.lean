import Scene.Proofs.Except
import Scene.Proofs.Inheritance.Lineage
import Scene.Scalar.Exact
import Scene.Validation

/-! Validation as one row of checks. Which checks are due is read off the definition and the
properties, and they have an order: by stage, within a stage by the name of the property, validators
by their place. The first that fails in this order decides, and none behind it is made. -/
namespace Scene
variable {φ α : Type}

inductive Check (φ : Type) where
  | presence (property : String)
  | type (property : String) (tag : Tag)
  | predicate (property : String) (p : Predicate φ)
  | whole (place : Nat) (v : Validator φ)

namespace Check

def stage : Check φ → Nat
  | .presence _ => 0
  | .type .. => 1
  | .predicate .. => 2
  | .whole .. => 3

inductive Precedes : Check φ → Check φ → Prop
  | stage {a b : Check φ} (h : a.stage < b.stage) : Precedes a b
  | presence {j k : String} (h : j < k) : Precedes (.presence j) (.presence k)
  | type {j k : String} {s t : Tag} (h : j < k) : Precedes (.type j s) (.type k t)
  | predicate {j k : String} {p q : Predicate φ} (h : j < k) :
    Precedes (.predicate j p) (.predicate k q)
  | whole {i j : Nat} {v w : Validator φ} (h : i < j) : Precedes (.whole i v) (.whole j w)

/-- The definition asks for the check, and the properties have something to check. -/
inductive Due (d : Definition φ α) (props : Props φ α) : Check φ → Prop
  | presence {k : String} {s : Schema φ α} (hschema : Dict.get? d.properties k = some s)
      (hrequired : s.required = true) : Due d props (.presence k)
  | type {k : String} {s : Schema φ α} {tag : Tag} {v : Value φ α}
      (hschema : Dict.get? d.properties k = some s) (htag : s.tag? = some tag)
      (hvalue : Dict.get? props k = some v) (hnull : v.isNull = false) : Due d props (.type k tag)
  | predicate {k : String} {s : Schema φ α} {p : Predicate φ} {v : Value φ α}
      (hschema : Dict.get? d.properties k = some s) (hpredicate : s.validate? = some p)
      (hvalue : Dict.get? props k = some v) (hnull : v.isNull = false) :
      Due d props (.predicate k p)
  | whole {i : Nat} {v : Validator φ} (hplace : d.validators[i]? = some v) :
      Due d props (.whole i v)

variable [Scalar α]

/-- The check is due and fails, and this is its error. -/
inductive Fails (m : Meaning φ α) (d : Definition φ α) (props : Props φ α) :
    Check φ → ResolveError α → Prop
  | presence {k : String} {s : Schema φ α} (hschema : Dict.get? d.properties k = some s)
      (hrequired : s.required = true)
      (hmissing : ∀ v, Dict.get? props k = some v → v.isNull = true) :
      Fails m d props (.presence k) (.missingProperty d.name k)
  | type {k : String} {s : Schema φ α} {tag : Tag} {v : Value φ α}
      (hschema : Dict.get? d.properties k = some s) (htag : s.tag? = some tag)
      (hvalue : Dict.get? props k = some v) (hnull : v.isNull = false)
      (hrefused : tag.admits v = false) :
      Fails m d props (.type k tag) (.propertyType d.name k tag)
  | predicate {k : String} {s : Schema φ α} {p : Predicate φ} {v : Value φ α}
      (hschema : Dict.get? d.properties k = some s) (hpredicate : s.validate? = some p)
      (hvalue : Dict.get? props k = some v) (hnull : v.isNull = false)
      (hrefused : p.test m v = false) :
      Fails m d props (.predicate k p) (.propertyValidation d.name k)
  | whole {i : Nat} {v : Validator φ} {message : String} (hplace : d.validators[i]? = some v)
      (hrefused : v.check m props = .error message) :
      Fails m d props (.whole i v) (.specValidation d.name message)

def outcome (m : Meaning φ α) (typeName : String) (props : Props φ α) :
    Check φ → Except (ResolveError α) Unit
  | .presence k =>
    if (Validation.present? props k).isSome then .ok () else .error (.missingProperty typeName k)
  | .type k tag =>
    if (Validation.present? props k).all tag.admits then .ok ()
    else .error (.propertyType typeName k tag)
  | .predicate k p =>
    if (Validation.present? props k).all (p.test m) then .ok ()
    else .error (.propertyValidation typeName k)
  | .whole _ v =>
    match v.check m props with
    | .ok () => .ok ()
    | .error message => .error (.specValidation typeName message)

def ofTag? (props : Props φ α) (e : String × Schema φ α) : Option (Check φ) :=
  match e.2.tag?, Validation.present? props e.1 with
  | some tag, some _ => some (.type e.1 tag)
  | _, _ => none

def ofPredicate? (props : Props φ α) (e : String × Schema φ α) : Option (Check φ) :=
  match e.2.validate?, Validation.present? props e.1 with
  | some p, some _ => some (.predicate e.1 p)
  | _, _ => none

end Check

structure Definition.Accepts [Scalar α] (m : Meaning φ α) (d : Definition φ α)
    (props : Props φ α) : Prop where
  required : ∀ k s, Dict.get? d.properties k = some s → s.required = true →
    ∃ v, Dict.get? props k = some v ∧ v.isNull = false
  typed : ∀ k s tag v, Dict.get? d.properties k = some s → s.tag? = some tag →
    Dict.get? props k = some v → v.isNull = false → tag.admits v = true
  tested : ∀ k s p v, Dict.get? d.properties k = some s → s.validate? = some p →
    Dict.get? props k = some v → v.isNull = false → p.test m v = true
  accepted : ∀ v ∈ d.validators, v.check m props = .ok ()

namespace Validation

def passes {μ : Type → Type} [Monad μ] (make : Check φ → μ Unit) (d : Definition φ α)
    (props : Props φ α) : μ Unit := do
  d.required.forM fun k => make (.presence k)
  d.properties.forM fun e => (Check.ofTag? props e).forM make
  d.properties.forM fun e => (Check.ofPredicate? props e).forM make
  d.validators.zipIdx.forM fun v => make (.whole v.2 v.1)

def due (d : Definition φ α) (props : Props φ α) : List (Check φ) :=
  d.required.map .presence ++ (d.properties.filterMap (Check.ofTag? props) ++
    (d.properties.filterMap (Check.ofPredicate? props) ++
      d.validators.zipIdx.map fun v => .whole v.2 v.1))

theorem forM_filterMap {β γ : Type} {μ : Type → Type} [Monad μ] [LawfulMonad μ]
    (f : β → Option γ) (make : γ → μ Unit) (l : List β) :
    (l.filterMap f).forM make = l.forM fun b => (f b).forM make := by
  simp only [List.forM_eq_forM]
  induction l with
  | nil => rfl
  | cons b l ih =>
    rw [List.forM_cons, List.filterMap_cons, ← ih]
    cases f b with
    | none => simp [Option.forM]
    | some c => simp [Option.forM]

theorem passes_eq {μ : Type → Type} [Monad μ] [LawfulMonad μ] (make : Check φ → μ Unit)
    (d : Definition φ α) (props : Props φ α) :
    passes make d props = (due d props).forM make := by
  rw [passes, ← forM_filterMap, ← forM_filterMap]
  simp only [due, List.forM_eq_forM, List.forM_append, List.forM_map]

variable [Scalar α]

/-- Checks with a record of those that were made. -/
abbrev Recorded (φ α : Type) := ExceptT (ResolveError α) (StateM (List (Check φ)))

def record (m : Meaning φ α) (typeName : String) (props : Props φ α) (c : Check φ) :
    Recorded φ α Unit := do
  modify (· ++ [c])
  ExceptT.mk (pure (c.outcome m typeName props))

def recorded (m : Meaning φ α) (d : Definition φ α) (props : Props φ α) : Recorded φ α Unit :=
  passes (record m d.name props) d props

theorem validate_eq (m : Meaning φ α) (d : Definition φ α) (props : Props φ α) :
    validate m d props = passes (Check.outcome m d.name props) d props := by
  have htags : checkTag d props = fun e =>
      (Check.ofTag? props e).forM (Check.outcome m d.name props) := by
    funext e
    rw [checkTag, Check.ofTag?]
    cases e.2.tag? with
    | none => rfl
    | some tag =>
      cases h : present? props e.1 with
      | none => rfl
      | some v => simp [Option.forM, Check.outcome, h]
  have hpredicates : checkPredicate m d props = fun e =>
      (Check.ofPredicate? props e).forM (Check.outcome m d.name props) := by
    funext e
    rw [checkPredicate, Check.ofPredicate?]
    cases e.2.validate? with
    | none => rfl
    | some p =>
      cases h : present? props e.1 with
      | none => rfl
      | some v => simp [Option.forM, Check.outcome, h]
  have hwholes : d.validators.forM (checkWhole m d props) =
      d.validators.zipIdx.forM fun v => Check.outcome m d.name props (.whole v.2 v.1) := by
    conv_lhs => rw [← List.zipIdx_map_fst 0 d.validators]
    exact List.forM_map
  rw [validate, passes, htags, hpredicates, hwholes]
  rfl

omit [Scalar α] in
theorem present?_eq_some {props : Props φ α} {k : String} {v : Value φ α} :
    present? props k = some v ↔ Dict.get? props k = some v ∧ v.isNull = false := by
  rw [present?]
  cases Dict.get? props k with
  | none => simp
  | some u => cases u <;> grind [Value.isNull]

omit [Scalar α] in
theorem present?_eq_none {props : Props φ α} {k : String} :
    present? props k = none ↔ ∀ v, Dict.get? props k = some v → v.isNull = true := by
  rw [Option.eq_none_iff_forall_ne_some]
  simp only [ne_eq, present?_eq_some, not_and, Bool.not_eq_false]

end Validation

namespace Check
open Validation

theorem Precedes.asymm {a b : Check φ} (h : a.Precedes b) : ¬b.Precedes a := by
  intro h'
  cases h with
  | stage h =>
    cases h' with
    | stage h' => omega
    | _ => exact Nat.lt_irrefl _ h
  | whole h =>
    cases h' with
    | stage h' => exact Nat.lt_irrefl _ h'
    | whole h' => omega
  | _ h =>
    cases h' with
    | stage h' => exact Nat.lt_irrefl _ h'
    | _ h' => exact String.lt_irrefl _ (String.lt_trans h h')

theorem Precedes.of_stages {a b : Check φ} {i j : Nat} (ha : a.stage = i) (hb : b.stage = j)
    (h : i < j) : a.Precedes b :=
  .stage (by rwa [ha, hb])

section
variable {d : Definition φ α} {props : Props φ α} {e : String × Schema φ α} {c : Check φ}

theorem ofTag?_eq_some : ofTag? props e = some c ↔
    ∃ tag v, e.2.tag? = some tag ∧ present? props e.1 = some v ∧ .type e.1 tag = c := by
  rw [ofTag?]
  cases e.2.tag? <;> cases present? props e.1 <;> simp

theorem ofPredicate?_eq_some : ofPredicate? props e = some c ↔
    ∃ p v, e.2.validate? = some p ∧ present? props e.1 = some v ∧ .predicate e.1 p = c := by
  rw [ofPredicate?]
  cases e.2.validate? <;> cases present? props e.1 <;> simp

variable (hd : Dict.Sorted d.properties)
include hd

theorem mem_due : c ∈ due d props ↔ c.Due d props := by
  simp only [due, List.mem_append, List.mem_map, List.mem_filterMap, ofTag?_eq_some,
    ofPredicate?_eq_some, present?_eq_some, Definition.mem_required hd]
  constructor
  · rintro (⟨k, ⟨s, hs, hrequired⟩, rfl⟩ | ⟨f, hf, tag, v, htag, ⟨hv, hnull⟩, rfl⟩ |
      ⟨f, hf, p, v, hp, ⟨hv, hnull⟩, rfl⟩ | ⟨v, hv, rfl⟩)
    · exact .presence hs hrequired
    · exact .type (hd.get?_eq_some_iff.mpr hf) htag hv hnull
    · exact .predicate (hd.get?_eq_some_iff.mpr hf) hp hv hnull
    · exact .whole (List.mem_zipIdx_iff_getElem?.mp hv)
  · rintro (⟨hs, hrequired⟩ | ⟨hs, htag, hv, hnull⟩ | ⟨hs, hp, hv, hnull⟩ | ⟨hplace⟩)
    · exact .inl ⟨_, ⟨_, hs, hrequired⟩, rfl⟩
    · exact .inr (.inl ⟨_, hd.get?_eq_some_iff.mp hs, _, _, htag, ⟨hv, hnull⟩, rfl⟩)
    · exact .inr (.inr (.inl ⟨_, hd.get?_eq_some_iff.mp hs, _, _, hp, ⟨hv, hnull⟩, rfl⟩))
    · exact .inr (.inr (.inr ⟨(_, _), List.mem_zipIdx_iff_getElem?.mpr hplace, rfl⟩))

theorem pairwise_due (props : Props φ α) : (due d props).Pairwise Precedes := by
  have hpresence : ∀ c ∈ d.required.map (presence (φ := φ)), c.stage = 0 :=
    List.forall_mem_map.mpr fun _ _ => rfl
  have htype : ∀ c ∈ d.properties.filterMap (ofTag? props), c.stage = 1 := by
    intro c hc
    obtain ⟨_, -, hc⟩ := List.mem_filterMap.mp hc
    obtain ⟨_, _, -, -, rfl⟩ := ofTag?_eq_some.mp hc
    rfl
  have hpredicate : ∀ c ∈ d.properties.filterMap (ofPredicate? props), c.stage = 2 := by
    intro c hc
    obtain ⟨_, -, hc⟩ := List.mem_filterMap.mp hc
    obtain ⟨_, _, -, -, rfl⟩ := ofPredicate?_eq_some.mp hc
    rfl
  have hwhole : ∀ c ∈ d.validators.zipIdx.map fun v => whole v.2 v.1, c.stage = 3 :=
    List.forall_mem_map.mpr fun _ _ => rfl
  rw [due, List.pairwise_append, List.pairwise_append, List.pairwise_append]
  refine ⟨?_, ⟨?_, ⟨?_, ?_, ?_⟩, ?_⟩, ?_⟩
  · rw [List.pairwise_map, Definition.required, List.pairwise_filterMap]
    refine hd.imp fun hlt j hj k hk => .presence ?_
    obtain ⟨-, hj⟩ := Option.ite_none_right_eq_some.mp hj
    obtain ⟨-, hk⟩ := Option.ite_none_right_eq_some.mp hk
    rwa [← Option.some.inj hj, ← Option.some.inj hk]
  · refine List.pairwise_filterMap.mpr (hd.imp fun hlt b hb c hc => ?_)
    obtain ⟨_, _, -, -, rfl⟩ := ofTag?_eq_some.mp hb
    obtain ⟨_, _, -, -, rfl⟩ := ofTag?_eq_some.mp hc
    exact .type hlt
  · refine List.pairwise_filterMap.mpr (hd.imp fun hlt b hb c hc => ?_)
    obtain ⟨_, _, -, -, rfl⟩ := ofPredicate?_eq_some.mp hb
    obtain ⟨_, _, -, -, rfl⟩ := ofPredicate?_eq_some.mp hc
    exact .predicate hlt
  · have hplaces : d.validators.zipIdx.Pairwise (·.2 < ·.2) :=
      List.pairwise_iff_getElem.mpr fun i j _ _ hlt => by simpa using hlt
    exact List.pairwise_map.mpr (hplaces.imp .whole)
  · intro b hb c hc
    exact .of_stages (hpredicate b hb) (hwhole c hc) (by decide)
  · intro b hb c hc
    rcases List.mem_append.mp hc with hc | hc
    · exact .of_stages (htype b hb) (hpredicate c hc) (by decide)
    · exact .of_stages (htype b hb) (hwhole c hc) (by decide)
  · intro b hb c hc
    rcases List.mem_append.mp hc with hc | hc
    · exact .of_stages (hpresence b hb) (htype c hc) (by decide)
    · rcases List.mem_append.mp hc with hc | hc
      · exact .of_stages (hpresence b hb) (hpredicate c hc) (by decide)
      · exact .of_stages (hpresence b hb) (hwhole c hc) (by decide)

end
section
variable [Scalar α] {m : Meaning φ α} {d : Definition φ α} {props : Props φ α} {c : Check φ}
  {e : ResolveError α}

theorem fails_iff : c.Fails m d props e ↔
    c.Due d props ∧ c.outcome m d.name props = .error e := by
  constructor
  · rintro (⟨hs, hrequired, hmissing⟩ | ⟨hs, htag, hv, hnull, hrefused⟩ |
      ⟨hs, hp, hv, hnull, hrefused⟩ | ⟨hplace, hrefused⟩)
    · refine ⟨.presence hs hrequired, ?_⟩
      rw [outcome, present?_eq_none.mpr hmissing]
      rfl
    · refine ⟨.type hs htag hv hnull, ?_⟩
      simp [outcome, present?_eq_some.mpr ⟨hv, hnull⟩, hrefused]
    · refine ⟨.predicate hs hp hv hnull, ?_⟩
      simp [outcome, present?_eq_some.mpr ⟨hv, hnull⟩, hrefused]
    · refine ⟨.whole hplace, ?_⟩
      rw [outcome, hrefused]
  · rintro ⟨⟨hs, hrequired⟩ | ⟨hs, htag, hv, hnull⟩ | ⟨hs, hp, hv, hnull⟩ | ⟨hplace⟩, he⟩
    · rw [outcome] at he
      split at he
      · cases he
      · next hmissing =>
        cases he
        exact .presence hs hrequired (present?_eq_none.mp (by simpa using hmissing))
    · simp only [outcome, present?_eq_some.mpr ⟨hv, hnull⟩, Option.all_some] at he
      split at he
      · cases he
      · next hrefused =>
        cases he
        exact .type hs htag hv hnull (Bool.eq_false_iff.mpr hrefused)
    · simp only [outcome, present?_eq_some.mpr ⟨hv, hnull⟩, Option.all_some] at he
      split at he
      · cases he
      · next hrefused =>
        cases he
        exact .predicate hs hp hv hnull (Bool.eq_false_iff.mpr hrefused)
    · rw [outcome] at he
      split at he
      · cases he
      · next message hrefused =>
        cases he
        exact .whole hplace hrefused

/-- Properties are taken where no check fails. -/
theorem accepts_iff : d.Accepts m props ↔ ∀ (c : Check φ) e, ¬c.Fails m d props e := by
  constructor
  · rintro h c e (⟨hs, hrequired, hmissing⟩ | ⟨hs, htag, hv, hnull, hrefused⟩ |
      ⟨hs, hp, hv, hnull, hrefused⟩ | ⟨hplace, hrefused⟩)
    · obtain ⟨v, hv, hnull⟩ := h.required _ _ hs hrequired
      rw [hmissing v hv] at hnull
      cases hnull
    · rw [h.typed _ _ _ _ hs htag hv hnull] at hrefused
      cases hrefused
    · rw [h.tested _ _ _ _ hs hp hv hnull] at hrefused
      cases hrefused
    · rw [h.accepted _ (List.mem_of_getElem? hplace)] at hrefused
      cases hrefused
  · intro h
    refine ⟨fun k s hs hrequired => ?_, fun k s tag v hs htag hv hnull => ?_,
      fun k s p v hs hp hv hnull => ?_, fun v hv => ?_⟩
    · by_contra hmissing
      refine h _ _ (.presence hs hrequired fun v hv => ?_)
      by_contra hnull
      exact hmissing ⟨v, hv, Bool.eq_false_iff.mpr hnull⟩
    · by_contra hrefused
      exact h _ _ (.type hs htag hv hnull (Bool.eq_false_iff.mpr hrefused))
    · by_contra hrefused
      exact h _ _ (.predicate hs hp hv hnull (Bool.eq_false_iff.mpr hrefused))
    · obtain ⟨i, hplace⟩ := List.mem_iff_getElem?.mp hv
      cases hcheck : v.check m props with
      | ok _ => rfl
      | error message => exact absurd (.whole hplace hcheck) (h _ _)

end
end Check

namespace Validation
variable [Scalar α] {m : Meaning φ α} {typeName : String} {props : Props φ α}

theorem record_bind (c : Check φ) (rest : Recorded φ α Unit) (log : List (Check φ)) :
    (record m typeName props c >>= fun _ => rest) log =
      match c.outcome m typeName props with
      | .ok () => rest (log ++ [c])
      | .error e => (.error e, log ++ [c]) := by
  change ExceptT.bindCont (fun _ => rest) (c.outcome m typeName props) (log ++ [c]) = _
  cases c.outcome m typeName props <;> rfl

/-- The checks that are made are the ones with no failing one before them. -/
theorem exists_made (m : Meaning φ α) (typeName : String) (props : Props φ α)
    {checks : List (Check φ)} (hchecks : checks.Pairwise Check.Precedes) (log : List (Check φ)) :
    ∃ made,
      checks.forM (record m typeName props) log =
          (checks.forM (Check.outcome m typeName props), log ++ made) ∧
        made.Pairwise Check.Precedes ∧ ∀ c, c ∈ made ↔
          c ∈ checks ∧ ∀ b ∈ checks, b.Precedes c → b.outcome m typeName props = .ok () := by
  induction checks generalizing log with
  | nil => exact ⟨[], by rw [List.append_nil]; rfl, .nil, by simp⟩
  | cons c rest ih =>
    obtain ⟨hfirst, hrest⟩ := List.pairwise_cons.mp hchecks
    have hleast : ∀ b ∈ c :: rest, ¬b.Precedes c :=
      List.forall_mem_cons.mpr ⟨fun h => h.asymm h, fun b hb => (hfirst b hb).asymm⟩
    have hrecord : (c :: rest).forM (record m typeName props) =
        record m typeName props c >>= fun _ => rest.forM (record m typeName props) := rfl
    have houtcome : (c :: rest).forM (Check.outcome m typeName props) =
        c.outcome m typeName props >>= fun _ =>
          rest.forM (Check.outcome m typeName props) := rfl
    rw [hrecord, houtcome, record_bind]
    cases hc : c.outcome m typeName props with
    | error e =>
      refine ⟨[c], rfl, List.pairwise_singleton _ _, fun a => ?_⟩
      rw [List.mem_singleton]
      constructor
      · rintro rfl
        exact ⟨List.mem_cons_self, fun b hb h => absurd h (hleast b hb)⟩
      · rintro ⟨ha, hbefore⟩
        rcases List.mem_cons.mp ha with rfl | ha
        · rfl
        · rw [hbefore c List.mem_cons_self (hfirst a ha)] at hc
          cases hc
    | ok _ =>
      obtain ⟨made, hrun, hmade, hmem⟩ := ih hrest (log ++ [c])
      refine ⟨c :: made, ?_, ?_, fun a => ?_⟩
      · rw [ok_bind]
        simpa only [List.append_assoc, List.singleton_append] using hrun
      · exact List.pairwise_cons.mpr ⟨fun b hb => hfirst b ((hmem b).mp hb).1, hmade⟩
      · constructor
        · intro ha
          rcases List.mem_cons.mp ha with rfl | ha
          · exact ⟨List.mem_cons_self, fun b hb h => absurd h (hleast b hb)⟩
          · obtain ⟨hrest, hbefore⟩ := (hmem a).mp ha
            exact ⟨List.mem_cons_of_mem c hrest,
              List.forall_mem_cons.mpr ⟨fun _ => hc, hbefore⟩⟩
        · rintro ⟨ha, hbefore⟩
          rcases List.mem_cons.mp ha with rfl | ha
          · exact List.mem_cons_self
          · exact List.mem_cons_of_mem c ((hmem a).mpr
              ⟨ha, fun b hb => hbefore b (List.mem_cons_of_mem c hb)⟩)

theorem validate_eq_due (m : Meaning φ α) (d : Definition φ α) (props : Props φ α) :
    validate m d props = (due d props).forM (Check.outcome m d.name props) :=
  (validate_eq m d props).trans (passes_eq _ d props)

section
variable {d : Definition φ α} (hd : Dict.Sorted d.properties)
include hd

theorem forall_due_iff {P : Check φ → Prop} :
    (∀ b ∈ due d props, P b → b.outcome m d.name props = .ok ()) ↔
      ∀ b, P b → ∀ e, ¬b.Fails m d props e := by
  constructor
  · intro h b hb e hfails
    obtain ⟨hdue, he⟩ := Check.fails_iff.mp hfails
    rw [h b ((Check.mem_due hd).mpr hdue) hb] at he
    cases he
  · intro h b hdue hb
    cases hc : b.outcome m d.name props with
    | ok _ => rfl
    | error e =>
      exact absurd (Check.fails_iff.mpr ⟨(Check.mem_due hd).mp hdue, hc⟩) (h b hb e)

theorem validate_eq_ok : validate m d props = .ok () ↔ d.Accepts m props := by
  rw [validate_eq_due, forM_eq_ok, Check.accepts_iff]
  simpa using forall_due_iff (P := fun _ => True) hd

theorem validate_eq_error {e : ResolveError α} : validate m d props = .error e ↔
    ∃ c : Check φ, c.Fails m d props e ∧
      ∀ b : Check φ, b.Precedes c → ∀ e', ¬b.Fails m d props e' := by
  rw [validate_eq_due, forM_eq_error (Check.pairwise_due hd props) Check.Precedes.asymm]
  refine exists_congr fun c => ?_
  rw [forall_due_iff hd, Check.fails_iff, Check.mem_due hd, and_assoc]

end

/-- Properties are taken exactly where no required one is missing or null, all others that are there
and not null have the declared types and pass their predicates, and all validators accept. Otherwise
the error is that of the first check that fails: by stage, then by the name of the property, and
validators in the order of the declarations, those of ancestors first. The checks that are made are
those that are due and have no failing one before them. -/
theorem validate_in_order (m : Meaning φ α) (d : Definition φ α) (props : Props φ α)
    (hd : Dict.Sorted d.properties) :
    (validate m d props = .ok () ↔ d.Accepts m props) ∧
    (∀ e, validate m d props = .error e ↔ ∃ c : Check φ, c.Fails m d props e ∧
      ∀ b : Check φ, b.Precedes c → ∀ e', ¬b.Fails m d props e') ∧
    (∃ made, recorded m d props [] = (validate m d props, made) ∧
      made.Pairwise Check.Precedes ∧ ∀ c, c ∈ made ↔ c.Due d props ∧
        ∀ b : Check φ, b.Precedes c → ∀ e, ¬b.Fails m d props e) ∧
    ∀ ds, Lineage ds d → d.validators = ds.filterMap (·.validate?) := by
  refine ⟨validate_eq_ok hd, fun e => validate_eq_error hd, ?_, fun ds h => h.validators_eq⟩
  obtain ⟨made, hrun, hmade, hmem⟩ :=
    exists_made m d.name props (Check.pairwise_due hd props) []
  refine ⟨made, ?_, hmade, fun c => ?_⟩
  · rw [recorded, passes_eq, hrun, validate_eq_due, List.nil_append]
  · rw [hmem, Check.mem_due hd, forall_due_iff hd]

def dial : Definition String Exact where
  name := "dial"
  properties := [("label", .mandatory),
    ("level", (Schema.optional.ofTag .number).validatedBy .notNegative)]
  implementation := .host "draw"
  extends? := none
  validators := [.host "levelled"]
  layout? := none

def levelling : Meaning String Exact where
  compute := fun _ _ => .ok .null
  test := fun _ _ => true
  check := fun _ props =>
    match Dict.get? props "level" with
    | some (.number _) => .ok ()
    | _ => .error "no level"
  rules := fun _ _ _ => []
  implement := fun _ _ _ _ => .finish (.error (.specShape "nothing is drawn"))

def worded : Props String Exact := [("label", .string "speed"), ("level", .string "high")]

example : recorded levelling dial worded [] =
    (.error (.propertyType "dial" "level" .number),
      [.presence "label", .type "level" .number]) := rfl

theorem dial_checked :
    Dict.Sorted dial.properties ∧
      dial.Accepts levelling [("label", .string "speed"), ("level", .number (.fin 3))] ∧
      ∃ c : Check String, c.Fails levelling dial worded (.propertyType "dial" "level" .number) ∧
        ∀ b : Check String, b.Precedes c → ∀ e, ¬b.Fails levelling dial worded e := by
  have hd : Dict.Sorted dial.properties := by decide
  exact ⟨hd, (validate_in_order levelling dial _ hd).1.mp rfl,
    ((validate_in_order levelling dial worded hd).2.1 _).mp rfl⟩

end Validation
end Scene
