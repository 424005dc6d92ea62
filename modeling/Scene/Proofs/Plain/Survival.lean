import Scene.Value.Plain
import Scene.Proofs.Dict
import Scene.Proofs.Except
import Scene.Proofs.Scalar.Restored

/-! Values as plain data and back. A value is plain data unless something in it is resolved,
computed or a function; and read back it is what it was, but for the sign of a zero. -/
namespace Scene.Value
variable {φ α : Type}

inductive Holds : Value φ α → Value φ α → Prop where
  | self (v : Value φ α) : Holds v v
  | item {items : List (Value φ α)} {v u : Value φ α} (mem : v ∈ items) (holds : Holds v u) :
    Holds (.array items) u
  | field {fields : List (String × Value φ α)} {e : String × Value φ α} {u : Value φ α}
    (mem : e ∈ fields) (holds : Holds e.2 u) : Holds (.object fields) u

def isLive : Value φ α → Bool
  | .renderable _ | .computed _ | .function _ => true
  | _ => false

mutual

/-- The value with other numbers, in the same places of arrays and under the same keys. -/
def mapNumbers (f : α → α) : Value φ α → Value φ α
  | .null => .null
  | .bool b => .bool b
  | .number n => .number (f n)
  | .string s => .string s
  | .array items => .array (mapItems f items)
  | .object fields => .object (mapFields f fields)
  | .renderable r => .renderable r
  | .computed code => .computed code
  | .function g => .function g

def mapItems (f : α → α) : List (Value φ α) → List (Value φ α)
  | [] => []
  | v :: vs => mapNumbers f v :: mapItems f vs

def mapFields (f : α → α) : List (String × Value φ α) → List (String × Value φ α)
  | [] => []
  | (k, v) :: rest => (k, mapNumbers f v) :: mapFields f rest

end

/-- Induction on values as data: an array is built of its items, an object of its fields. -/
@[elab_as_elim]
theorem data_induction {P : Value φ α → Prop} (null : P .null) (bool : ∀ b, P (.bool b))
    (number : ∀ n, P (.number n)) (string : ∀ s, P (.string s))
    (array : ∀ items, (∀ v ∈ items, P v) → P (.array items))
    (object : ∀ fields, (∀ e ∈ fields, P e.2) → P (.object fields))
    (renderable : ∀ r, P (.renderable r)) (computed : ∀ code, P (.computed code))
    (function : ∀ f, P (.function f)) : (v : Value φ α) → P v
  | .null => null
  | .bool b => bool b
  | .number n => number n
  | .string s => string s
  | .array items => array items fun v _ =>
    data_induction null bool number string array object renderable computed function v
  | .object fields => object fields fun e _ =>
    data_induction null bool number string array object renderable computed function e.2
  | .renderable r => renderable r
  | .computed code => computed code
  | .function f => function f
termination_by v => sizeOf v
decreasing_by
  · have := List.sizeOf_lt_of_mem ‹v ∈ items›
    simp only [Value.array.sizeOf_spec]
    omega
  · have := List.sizeOf_lt_of_mem ‹e ∈ fields›
    have : sizeOf e.2 < sizeOf e := by
      obtain ⟨key, v⟩ := e
      simp only [Prod.mk.sizeOf_spec]
      omega
    simp only [Value.object.sizeOf_spec]
    omega

theorem Holds.eq_of_leaf {v u : Value φ α} (h : v.Holds u) (harray : v.asArray? = none)
    (hobject : v.asObject? = none) : u = v := by
  cases h with
  | self => rfl
  | item => cases harray
  | field => cases hobject

theorem holds_array {items : List (Value φ α)} {u : Value φ α} :
    (array items).Holds u ↔ u = .array items ∨ ∃ v ∈ items, v.Holds u := by
  constructor
  · intro h
    cases h with
    | self => exact .inl rfl
    | item mem holds => exact .inr ⟨_, mem, holds⟩
  · rintro (rfl | ⟨v, mem, holds⟩)
    · exact .self _
    · exact .item mem holds

theorem holds_object {fields : List (String × Value φ α)} {u : Value φ α} :
    (object fields).Holds u ↔ u = .object fields ∨ ∃ e ∈ fields, e.2.Holds u := by
  constructor
  · intro h
    cases h with
    | self => exact .inl rfl
    | field mem holds => exact .inr ⟨_, mem, holds⟩
  · rintro (rfl | ⟨e, mem, holds⟩)
    · exact .self _
    · exact .field mem holds

section
variable [Scalar α]

theorem itemsToJson?_eq_none_iff {items : List (Value φ α)} :
    itemsToJson? items = none ↔ ∃ v ∈ items, toJson? v = none := by
  induction items with
  | nil => simp [itemsToJson?]
  | cons v vs ih =>
    rw [itemsToJson?, List.exists_mem_cons_iff, ← ih]
    cases toJson? v <;> cases itemsToJson? vs <;> simp

theorem fieldsToJson?_eq_none_iff {fields : List (String × Value φ α)} :
    fieldsToJson? fields = none ↔ ∃ e ∈ fields, toJson? e.2 = none := by
  induction fields with
  | nil => simp [fieldsToJson?]
  | cons e rest ih =>
    obtain ⟨key, v⟩ := e
    rw [fieldsToJson?, List.exists_mem_cons_iff, ← ih]
    cases toJson? v <;> cases fieldsToJson? rest <;> simp

/-- A value is plain data just where nothing in it is more than data. -/
theorem toJson?_eq_none_iff {v : Value φ α} :
    v.toJson? = none ↔ ∃ u, v.Holds u ∧ u.isLive = true := by
  induction v using data_induction with
  | array items ih =>
    rw [toJson?, Option.map_eq_none_iff, itemsToJson?_eq_none_iff]
    constructor
    · rintro ⟨v, hv, hnone⟩
      obtain ⟨u, hu, hlive⟩ := (ih v hv).mp hnone
      exact ⟨u, .item hv hu, hlive⟩
    · rintro ⟨u, hu, hlive⟩
      rcases holds_array.mp hu with rfl | ⟨v, hv, hu⟩
      · cases hlive
      · exact ⟨v, hv, (ih v hv).mpr ⟨u, hu, hlive⟩⟩
  | object fields ih =>
    rw [toJson?, Option.map_eq_none_iff, fieldsToJson?_eq_none_iff]
    constructor
    · rintro ⟨e, he, hnone⟩
      obtain ⟨u, hu, hlive⟩ := (ih e he).mp hnone
      exact ⟨u, .field he hu, hlive⟩
    · rintro ⟨u, hu, hlive⟩
      rcases holds_object.mp hu with rfl | ⟨e, he, hu⟩
      · cases hlive
      · exact ⟨e, he, (ih e he).mpr ⟨u, hu, hlive⟩⟩
  | renderable r => exact iff_of_true rfl ⟨_, .self _, rfl⟩
  | computed code => exact iff_of_true rfl ⟨_, .self _, rfl⟩
  | function f => exact iff_of_true rfl ⟨_, .self _, rfl⟩
  | _ =>
    refine iff_of_false nofun ?_
    rintro ⟨u, hu, hlive⟩
    obtain rfl := hu.eq_of_leaf rfl rfl
    cases hlive

/-! Reading back. -/

theorem itemsOfJson_eq {f : α → α} {items : List (Value φ α)} {js : List (Json α)}
    (h : itemsToJson? items = some js)
    (hitems : ∀ v ∈ items, ∀ j, toJson? v = some j → ofJson j = v.mapNumbers f) :
    itemsOfJson js = mapItems f items := by
  induction items generalizing js with
  | nil =>
    obtain rfl := Option.some.inj h
    rfl
  | cons v vs ih =>
    obtain ⟨hfirst, hrest⟩ := List.forall_mem_cons.mp hitems
    rw [itemsToJson?] at h
    obtain ⟨j, hj, h⟩ := Option.bind_eq_some_iff.mp h
    obtain ⟨rest, hrests, h⟩ := Option.bind_eq_some_iff.mp h
    obtain rfl := Option.some.inj h
    rw [itemsOfJson, mapItems, hfirst j hj, ih hrests hrest]

theorem fieldsOfJson_eq {f : α → α} {fields : List (String × Value φ α)}
    {js : List (String × Json α)} (h : fieldsToJson? fields = some js)
    (hfields : ∀ e ∈ fields, ∀ j, toJson? e.2 = some j → ofJson j = e.2.mapNumbers f) :
    fieldsOfJson js = mapFields f fields := by
  induction fields generalizing js with
  | nil =>
    obtain rfl := Option.some.inj h
    rfl
  | cons e rest ih =>
    obtain ⟨key, v⟩ := e
    obtain ⟨hfirst, hrest⟩ := List.forall_mem_cons.mp hfields
    rw [fieldsToJson?] at h
    obtain ⟨j, hj, h⟩ := Option.bind_eq_some_iff.mp h
    obtain ⟨js', hjs, h⟩ := Option.bind_eq_some_iff.mp h
    obtain rfl := Option.some.inj h
    rw [fieldsOfJson, mapFields, hfirst j hj, ih hjs hrest]

end

/-- On either side of the magnitude from which whole numbers are no integers. -/
theorem ofJson_plainNumber {n : Float} (h : Scalar.isFinite n = true) :
    (ofJson (plainNumber n) : Value φ Float) = .number (Scalar.unsigned n) := by
  rw [plainNumber]
  cases hinteger : Scalar.integer? n with
  | some i =>
    -- The integer is the value of a double, so reading it rounds nothing.
    exact congrArg number (Double.floatOfRat_eq_unsigned (Scalar.toRat?_of_integer? hinteger))
  | none =>
    have hsame : Scalar.unsigned n = n := if_neg (Scalar.toRat?_ne_zero_of_integer? hinteger)
    simp only [h, hsame, ↓reduceIte, ofJson]

theorem ofJson_toJson? {v : Value φ Float} {j : Json Float} (h : v.toJson? = some j)
    (hfinite : ∀ n, v.Holds (.number n) → Scalar.isFinite n = true) :
    ofJson j = v.mapNumbers Scalar.unsigned := by
  induction v using data_induction generalizing j with
  | number n =>
    obtain rfl := Option.some.inj h
    exact ofJson_plainNumber (hfinite n (.self _))
  | array items ih =>
    obtain ⟨js, hjs, rfl⟩ := Option.map_eq_some_iff.mp h
    rw [ofJson, mapNumbers]
    refine congrArg array (itemsOfJson_eq hjs fun v hv j hj => ih v hv hj fun n hn => ?_)
    exact hfinite n (.item hv hn)
  | object fields ih =>
    obtain ⟨js, hjs, rfl⟩ := Option.map_eq_some_iff.mp h
    rw [ofJson, mapNumbers]
    refine congrArg object (fieldsOfJson_eq hjs fun e he j hj => ih e he hj fun n hn => ?_)
    exact hfinite n (.field he hn)
  | null | bool b | string s =>
    obtain rfl := Option.some.inj h
    rfl
  | renderable r | computed code | function f => cases h

variable [DecidableEq φ]

theorem beqItems_map {items : List (Value φ Float)}
    (h : ∀ v ∈ items, beq (v.mapNumbers Scalar.unsigned) v = true) :
    beqItems (mapItems Scalar.unsigned items) items = true := by
  induction items with
  | nil => rfl
  | cons v vs ih =>
    obtain ⟨hfirst, hrest⟩ := List.forall_mem_cons.mp h
    rw [mapItems, beqItems, hfirst, ih hrest]
    rfl

theorem beqFields_map {fields : List (String × Value φ Float)}
    (h : ∀ e ∈ fields, beq (e.2.mapNumbers Scalar.unsigned) e.2 = true) :
    beqFields (mapFields Scalar.unsigned fields) fields = true := by
  induction fields with
  | nil => rfl
  | cons e rest ih =>
    obtain ⟨key, v⟩ := e
    obtain ⟨hfirst, hrest⟩ := List.forall_mem_cons.mp h
    rw [mapFields, beqFields, hfirst, ih hrest]
    simp

/-- The sign of a zero makes no difference. -/
theorem beq_mapNumbers {v : Value φ Float}
    (hfinite : ∀ n, v.Holds (.number n) → Scalar.isFinite n = true) :
    beq (v.mapNumbers Scalar.unsigned) v = true := by
  induction v using data_induction with
  | number n => exact Double.beq_unsigned (hfinite n (.self _))
  | array items ih =>
    exact beqItems_map fun v hv => ih v hv fun n hn => hfinite n (.item hv hn)
  | object fields ih =>
    exact beqFields_map fun e he => ih e he fun n hn => hfinite n (.field he hn)
  | _ => simp [mapNumbers, beq]

/-- A value has a plain form unless something in it, at whatever depth, is resolved, computed or a
function. If it has one and its numbers are finite, the plain form reads back as the value itself,
item by item and key by key, with nothing lost but the sign of zeros; and so as an equal value. -/
theorem plain_data_survives (v : Value φ Float) :
    (v.toJson? = none ↔ ∃ u, v.Holds u ∧ u.isLive = true) ∧
    ((∀ u, v.Holds u → u.isLive = false) →
      (∀ n, v.Holds (.number n) → Scalar.isFinite n = true) →
        ∃ j, v.toJson? = some j ∧ ofJson j = v.mapNumbers Scalar.unsigned ∧
          beq (ofJson j) v = true) := by
  refine ⟨toJson?_eq_none_iff, fun hplain hfinite => ?_⟩
  have hsome : v.toJson? ≠ none := by
    intro hnone
    obtain ⟨u, hu, hlive⟩ := toJson?_eq_none_iff.mp hnone
    rw [hplain u hu] at hlive
    cases hlive
  obtain ⟨j, hj⟩ := Option.ne_none_iff_exists'.mp hsome
  have hback := ofJson_toJson? hj hfinite
  exact ⟨j, hj, hback, hback ▸ beq_mapNumbers hfinite⟩

def threeNumbers : List Float := [-0.0, 9e15, 0.1]

def numbersAt (ns : List Float) : Value Unit Float :=
  object [("at", array (ns.map number)), ("fill", null)]

theorem cases_of_holds {ns : List Float} {u : Value Unit Float} (h : (numbersAt ns).Holds u) :
    u = numbersAt ns ∨ u = array (ns.map number) ∨ u = null ∨ ∃ n ∈ ns, u = number n := by
  rcases holds_object.mp h with hu | ⟨e, he, hu⟩
  · exact .inl hu
  · rcases List.mem_pair.mp he with rfl | rfl
    · rcases holds_array.mp hu with hu | ⟨v, hv, hu⟩
      · exact .inr (.inl hu)
      · obtain ⟨n, hn, rfl⟩ := List.mem_map.mp hv
        exact .inr (.inr (.inr ⟨n, hn, hu.eq_of_leaf rfl rfl⟩))
    · exact .inr (.inr (.inl (hu.eq_of_leaf rfl rfl)))

/-- The three numbers, and something computed in an array of arrays. -/
theorem plain_data_survives_nested :
    (∃ j, toJson? (numbersAt threeNumbers) = some j ∧ ofJson j = numbersAt [0.0, 9e15, 0.1] ∧
      beq (ofJson j) (numbersAt threeNumbers) = true) ∧
    toJson? (array [array [computed ()]] : Value Unit Float) = none := by
  constructor
  · have hunsigned : (numbersAt threeNumbers).mapNumbers Scalar.unsigned =
        numbersAt [0.0, 9e15, 0.1] := by
      have hnumbers : threeNumbers.map Scalar.unsigned = [0.0, 9e15, 0.1] := by decide +kernel
      exact congrArg numbersAt hnumbers
    have hfinite : ∀ n ∈ threeNumbers, Scalar.isFinite n = true := by decide +kernel
    rw [← hunsigned]
    refine (plain_data_survives _).2 (fun u hu => ?_) fun n hn => ?_
    · rcases cases_of_holds hu with rfl | rfl | rfl | ⟨n, -, rfl⟩ <;> rfl
    · rcases cases_of_holds hn with h | h | h | ⟨m, hm, h⟩
      · cases h
      · cases h
      · cases h
      · cases h
        exact hfinite n hm
  · have hcomputed : (array [array [computed ()]] : Value Unit Float).Holds (computed ()) :=
      .item List.mem_cons_self (.item List.mem_cons_self (.self _))
    exact (plain_data_survives _).1.mpr ⟨_, hcomputed, rfl⟩

end Scene.Value
