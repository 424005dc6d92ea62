import Scene.Proofs.Rendering.Composition

/-! Specs, however they were made. The type stands in a field of its own and never among the
properties, so the object form of a spec reads back as that spec, and an object that reads as a spec
is the object form of it. -/
namespace Scene.Spec
variable {φ α : Type} {s : Spec φ α}

/-- What a host program can get hold of: specs that are written out, changed or read. -/
inductive Made : Spec φ α → Prop where
  | create (typeName : String) : Made (create typeName)
  | ofProps (typeName : String) (props : Props φ α) : Made (ofProps typeName props)
  | set {s : Spec φ α} (made : Made s) (key : String) (v : Value φ α) : Made (s.set key v)
  | merged {s : Spec φ α} (made : Made s) (partials : Props φ α) : Made (s.merged partials)
  | ofValue {v : Value φ α} {s : Spec φ α} (reads : ofValue? v = .ok s) : Made s

theorem ofValue?_eq_ok {v : Value φ α} (h : ofValue? v = .ok s) :
    ∃ fields name, v = .object fields ∧ Dict.get? fields "type" = some (.string name) ∧
      s = .ofProps name fields := by
  cases v with
  | object fields =>
    obtain ⟨name, htype, hs⟩ := ofValue?_object h
    exact ⟨fields, name, rfl, htype, hs⟩
  | _ => cases h

theorem type_not_mem_erase (props : Props φ α) : "type" ∉ Dict.keys (Dict.erase props "type") := by
  rw [Dict.mem_keys_iff, Dict.get?_erase, if_pos rfl]
  nofun

theorem type_not_mem_set (h : "type" ∉ Dict.keys s.props) (key : String) (v : Value φ α) :
    "type" ∉ Dict.keys (s.set key v).props := by
  by_cases hkey : key = "type"
  · rwa [hkey, set_type]
  · rw [props_set hkey, Dict.mem_keys_insert]
    exact not_or.mpr ⟨h, Ne.symm hkey⟩

theorem type_not_mem_merged (h : "type" ∉ Dict.keys s.props) (partials : Props φ α) :
    "type" ∉ Dict.keys (s.merged partials).props := by
  rw [props_merged, Dict.mem_keys_overlay]
  exact not_or.mpr ⟨h, type_not_mem_erase partials⟩

theorem Made.type_not_mem (h : s.Made) : "type" ∉ Dict.keys s.props := by
  induction h with
  | create typeName => nofun
  | ofProps typeName props => exact type_not_mem_erase props
  | set made key v ih => exact type_not_mem_set ih key v
  | merged made partials ih => exact type_not_mem_merged ih partials
  | ofValue reads =>
    obtain ⟨fields, name, -, -, rfl⟩ := ofValue?_eq_ok reads
    exact type_not_mem_erase fields

/-- What is taken off an object in key order and put back makes the same object. -/
theorem toValue_ofProps {fields : Props φ α} (hsorted : Dict.Sorted fields) {name : String}
    (htype : Dict.get? fields "type" = some (.string name)) :
    (ofProps name fields).toValue = .object fields := by
  refine congrArg Value.object (((hsorted.erase _).insert _ _).ext hsorted fun key => ?_)
  rw [Dict.get?_insert, ofProps, Dict.get?_erase]
  split
  · next hkey => rw [hkey, htype]
  · rfl

/-- No spec has a property `type`, whatever it went through. Its object form reads back as the spec,
or is refused where the type is nothing but white space; and whatever reads as a spec is its object
form. Objects are in key order. -/
theorem made_reads_back :
    (∀ s : Spec φ α, s.Made →
      "type" ∉ Dict.keys s.props ∧
        ofValue? s.toValue =
          if Text.isBlank s.typeName then .error (.specShape "spec has an empty 'type'")
          else .ok s) ∧
    ∀ (v : Value φ α) (s : Spec φ α), (∀ fields, v = .object fields → Dict.Sorted fields) →
      ofValue? v = .ok s → s.toValue = v := by
  constructor
  · intro s hs
    have hno : ∀ e ∈ s.props, e.1 ≠ "type" := fun e he htype =>
      hs.type_not_mem (htype ▸ List.mem_map_of_mem he)
    exact ⟨hs.type_not_mem, ofValue?_toValue_eq hno⟩
  · intro v s hsorted hread
    obtain ⟨fields, name, rfl, htype, rfl⟩ := ofValue?_eq_ok hread
    exact toValue_ofProps (hsorted fields rfl) htype

/-- A rectangle that is turned into a circle, and an object with its type between two entries. -/
theorem made_reads_back_renamed :
    ofValue? (((create "rect").set "type" .null).merged
        [("r", .bool true), ("type", .string "circle")] : Spec Empty Empty).toValue =
      .ok ⟨"circle", [("r", .bool true)]⟩ ∧
    (⟨"rect", [("fill", .null), ("x", .bool true)]⟩ : Spec Empty Empty).toValue =
      .object [("fill", .null), ("type", .string "rect"), ("x", .bool true)] := by
  have hmade : (((create "rect").set "type" .null).merged
      [("r", .bool true), ("type", .string "circle")] : Spec Empty Empty).Made :=
    ((Made.create "rect").set "type" .null).merged _
  have hname : Text.isBlank "circle" = false := by decide
  have hread : ofValue? (.object
      [("fill", .null), ("type", .string "rect"), ("x", .bool true)] : Value Empty Empty) =
        .ok ⟨"rect", [("fill", .null), ("x", .bool true)]⟩ :=
    rfl
  refine ⟨(made_reads_back.1 _ hmade).2.trans (if_neg (ne_true_of_eq_false hname)), ?_⟩
  refine made_reads_back.2 _ _ (fun fields hfields => ?_) hread
  cases hfields
  decide

end Scene.Spec
