import Scene.Proofs.Svg.Graft
import Scene.Proofs.Svg.Moving

/-! What is in an element besides its links. It is what edits have put there while the element was
there; moves leave it alone, and so do edits of other elements. -/
namespace Scene.Svg

def Element.OnceNamed (e : Element) : Prop := (e.attributes.map (·.1)).Nodup

theorem keys_setEntry (name value : String) (entries : List (String × String)) :
    (setEntry name value entries).map (·.1) =
      if name ∈ entries.map (·.1) then entries.map (·.1) else entries.map (·.1) ++ [name] := by
  induction entries with
  | nil => rfl
  | cons a entries ih =>
    rw [setEntry]
    by_cases hkey : a.1 = name
    · simp [hkey]
    · rw [if_neg hkey, List.map_cons, ih]
      by_cases hmem : name ∈ entries.map (·.1)
      · simp [hmem]
      · simp [hmem, Ne.symm hkey]

theorem nodup_setEntry {entries : List (String × String)} (h : (entries.map (·.1)).Nodup)
    (name value : String) : ((setEntry name value entries).map (·.1)).Nodup := by
  rw [keys_setEntry]
  split
  · exact h
  · next hnew => exact List.nodup_append.mpr ⟨h, List.nodup_singleton _, fun key hkey key' hkey' =>
      List.mem_singleton.mp hkey' ▸ ne_of_mem_of_not_mem hkey hnew⟩

theorem mem_keys_setEntry {key name value : String} {entries : List (String × String)} :
    key ∈ (setEntry name value entries).map (·.1) ↔ key ∈ entries.map (·.1) ∨ key = name := by
  rw [keys_setEntry]
  split
  · next hmem => exact (or_iff_left_of_imp fun hkey => hkey ▸ hmem).symm
  · rw [List.mem_append, List.mem_singleton]

/-! What one edit does. -/

namespace Edit

def newTag? : Edit → Option String
  | .createElement tag | .append _ tag => some tag
  | _ => none

def amend (n : NodeId) (x : Element) : Edit → Element
  | .setAttribute m name value =>
    if m = n then { x with attributes := setEntry name value x.attributes } else x
  | .addClass m name =>
    if m = n then
      if x.classes.contains name then x else { x with classes := x.classes ++ [name] }
    else x
  | .setText m text => if m = n then { x with text := some text } else x
  | _ => x

theorem loose_amend (e : Edit) (n : NodeId) (x : Element) :
    (e.amend n x).loose = e.amend n x.loose := by
  cases e with
  | setAttribute => simp only [amend]; split <;> rfl
  | addClass m name => by_cases h : name ∈ x.classes <;> simp [amend, Element.loose, h, apply_ite]
  | setText => simp only [amend]; split <;> rfl
  | _ => rfl

variable {n : NodeId} {x : Element}

theorem tag_amend (e : Edit) (n : NodeId) (x : Element) : (e.amend n x).tag = x.tag := by
  cases e with
  | setAttribute | setText => simp only [amend]; split <;> rfl
  | addClass => simp only [amend]; split_ifs <;> rfl
  | _ => rfl

theorem mem_keys_amend (e : Edit) {name : String} :
    name ∈ (e.amend n x).attributes.map (·.1) ↔
      name ∈ x.attributes.map (·.1) ∨ ∃ value, e = .setAttribute n name value := by
  cases e with
  | setAttribute m key value =>
    by_cases hm : m = n
    · rw [amend, if_pos hm, mem_keys_setEntry]
      simp [hm, eq_comm]
    · simp [amend, hm]
  | addClass => simp only [amend]; split_ifs <;> simp
  | setText => simp only [amend]; split <;> simp
  | _ => simp [amend]

theorem classes_amend_ne_nil (e : Edit) :
    (e.amend n x).classes ≠ [] ↔ x.classes ≠ [] ∨ ∃ name, e = .addClass n name := by
  cases e with
  | addClass m name =>
    by_cases hm : m = n
    · by_cases hname : name ∈ x.classes
      · simp [amend, hm, hname, List.ne_nil_of_mem hname]
      · simp [amend, hm, hname]
    · simp [amend, hm]
  | setAttribute | setText => simp only [amend]; split <;> simp
  | _ => simp [amend]

theorem onceNamed_amend (h : x.OnceNamed) (e : Edit) (n : NodeId) : (e.amend n x).OnceNamed := by
  cases e with
  | setAttribute m name value =>
    simp only [amend]
    split
    · exact nodup_setEntry h name value
    · exact h
  | addClass => simp only [amend]; split_ifs <;> exact h
  | setText => simp only [amend]; split <;> exact h
  | _ => exact h

end Edit

namespace Document
variable {d : Document} {edits before after : List Edit} {e e' : Edit} {n : NodeId} {x : Element}

/-- An edit that makes an element puts it in the next place. -/
theorem contents_create {tag : String} (he : e.newTag? = some tag) :
    (d.createElement tag).2.SameContents (e.apply d) := by
  cases e with
  | createElement => cases he; exact .refl _
  | append parent => cases he; exact .appendChild _ parent _
  | _ => cases he

theorem element?_modify_eq (d : Document) (m n : NodeId) (f : Element → Element) :
    (d.modify m f).element? n = (d.element? n).map fun x => if m = n then f x else x := by
  rw [element?_modify]
  split <;> simp

/-- All others change at most one element. -/
theorem contents_amend (he : e.newTag? = none) (n : NodeId) :
    ((e.apply d).element? n).map Element.loose =
      ((d.element? n).map (e.amend n)).map Element.loose := by
  have hmoved (h : d.SameContents (e.apply d)) (hsame : e.amend n = id) :
      ((e.apply d).element? n).map Element.loose =
        ((d.element? n).map (e.amend n)).map Element.loose := by
    rw [hsame, Option.map_id]
    exact h n
  cases e with
  | createElement | append => cases he
  | appendChild parent child => exact hmoved (.appendChild d parent child) rfl
  | detach m => exact hmoved (.detach d m) rfl
  | replace old new => exact hmoved (.replace d old new) rfl
  | setAttribute m name value => rw [Edit.apply, setAttribute, element?_modify_eq]; rfl
  | addClass m name => rw [Edit.apply, addClass, element?_modify_eq]; rfl
  | setText m text => rw [Edit.apply, setText, element?_modify_eq]; rfl

/-- What holds of an element when it is made and whenever an edit may have changed it, holds of it in
every document. -/
theorem contents_edited {P : List Edit → NodeId → Element → Prop}
    (hroot : P [] root { Element.create "svg" with attributes := [("xmlns", namespaceUri)] })
    (hnew : ∀ edits e tag, e.newTag? = some tag →
      P (edits ++ [e]) (edited edits).nextId (.create tag))
    (hamend : ∀ edits e n x, (edited edits).contains n = true → P edits n x →
      P (edits ++ [e]) n (e.amend n x))
    (edits : List Edit) {n : NodeId} {x : Element} (hx : (edited edits).element? n = some x) :
    P edits n x.loose := by
  induction edits using List.reverseRecOn generalizing n x with
  | nil =>
    obtain ⟨_ | i⟩ := n
    · cases hx
      exact hroot
    · cases hx
  | append_singleton edits e ih =>
    have hold {y : Element} (hy : (edited edits).element? n = some y)
        (hxy : x.loose = (e.amend n y).loose) : P (edits ++ [e]) n x.loose := by
      rw [hxy, Edit.loose_amend]
      refine hamend edits e n _ ?_ (ih hy)
      rw [contains_eq_isSome, hy]
      rfl
    rw [edited_concat] at hx
    cases he : e.newTag? with
    | none =>
      have hsame := contents_amend (d := edited edits) he n
      rw [hx] at hsame
      obtain ⟨z, hz, hloose⟩ := Option.map_eq_some_iff.mp hsame.symm
      obtain ⟨y, hy, rfl⟩ := Option.map_eq_some_iff.mp hz
      exact hold hy hloose.symm
    | some tag =>
      have hsame := contents_create (d := edited edits) he n
      rw [hx, element?_createElement] at hsame
      obtain ⟨y, hy, hloose⟩ := Option.map_eq_some_iff.mp hsame.symm
      split at hy
      · next hindex =>
        obtain rfl : n = (edited edits).nextId := NodeId.ext hindex
        cases hy
        rw [← hloose]
        exact hnew edits e tag he
      · have hsame : e.amend n y = y := by
          cases e <;> first | rfl | cases he
        exact hold hy (by rw [hsame, hloose])

/-! What edits did to an element. -/

/-- The edit was made while the element was there. -/
def Reached (edits : List Edit) (n : NodeId) (e : Edit) : Prop :=
  ∃ before after, edits = before ++ e :: after ∧ (edited before).contains n = true

theorem contains_edited_append (h : (edited before).contains n = true) (after : List Edit) :
    (edited (before ++ after)).contains n = true := by
  induction after using List.reverseRecOn with
  | nil => rwa [List.append_nil]
  | append_singleton after e ih =>
    rw [← List.append_assoc, edited_concat]
    exact contains_apply ih e

theorem Reached.contains (h : Reached edits n e) : (edited edits).contains n = true := by
  obtain ⟨before, after, rfl, hn⟩ := h
  exact contains_edited_append hn _

theorem not_reached_nil : ¬ Reached [] n e := by
  rintro ⟨before, after, heq, -⟩
  simp at heq

theorem reached_concat : Reached (edits ++ [e']) n e ↔
    Reached edits n e ∨ e = e' ∧ (edited edits).contains n = true := by
  constructor
  · rintro ⟨before, after, heq, hn⟩
    rcases List.eq_nil_or_concat after with rfl | ⟨after, e'', rfl⟩
    · obtain ⟨rfl, hlast⟩ := List.append_inj' heq rfl
      cases hlast
      exact .inr ⟨rfl, hn⟩
    · rw [List.concat_eq_append, ← List.cons_append, ← List.append_assoc] at heq
      exact .inl ⟨before, after, (List.append_inj' heq rfl).1, hn⟩
  · rintro (⟨before, after, rfl, hn⟩ | ⟨rfl, hn⟩)
    · exact ⟨before, after ++ [e'], by simp, hn⟩
    · exact ⟨edits, [], rfl, hn⟩

/-- What is in an element comes from these edits. -/
structure Traced (edits : List Edit) (n : NodeId) (x : Element) : Prop where
  once : x.OnceNamed
  tag : x.tag = "svg" ∨ ∃ e ∈ edits, e.newTag? = some x.tag
  named (name : String) : name ∈ x.attributes.map (·.1) ↔
    (n = root ∧ name = "xmlns") ∨ ∃ value, Reached edits n (.setAttribute n name value)
  classed : x.classes ≠ [] ↔ ∃ name, Reached edits n (.addClass n name)

namespace Traced

theorem root : Traced [] root
    { Element.create "svg" with attributes := [("xmlns", namespaceUri)] } where
  once := List.nodup_singleton _
  tag := .inl rfl
  named name := by simp [not_reached_nil]
  classed := by simp [not_reached_nil, Element.create]

theorem create {tag : String} (he : e.newTag? = some tag) :
    Traced (edits ++ [e]) (edited edits).nextId (.create tag) := by
  have hnew : (edited edits).contains (edited edits).nextId = false := by simp [contains, nextId]
  have hout (e' : Edit) : ¬ Reached (edits ++ [e]) (edited edits).nextId e' := by
    rw [reached_concat, hnew]
    rintro (h | ⟨-, h⟩)
    · exact absurd h.contains (by simp [hnew])
    · cases h
  have hroot : (edited edits).nextId ≠ Document.root := fun heq => by
    have hin := contains_root_edited edits
    rw [← heq, hnew] at hin
    cases hin
  exact {
    once := List.nodup_nil
    tag := .inr ⟨e, by simp, he⟩
    named := fun name => by simp [hout, hroot, Element.create]
    classed := by simp [hout, Element.create] }

theorem amend (hn : (edited edits).contains n = true) (h : Traced edits n x) (e : Edit) :
    Traced (edits ++ [e]) n (e.amend n x) where
  once := Edit.onceNamed_amend h.once e n
  tag := by
    rw [Edit.tag_amend]
    exact h.tag.imp_right fun ⟨e', he', htag⟩ => ⟨e', List.mem_append_left _ he', htag⟩
  named name := by
    simp only [Edit.mem_keys_amend, h.named, reached_concat, hn, and_true, exists_or, or_assoc,
      eq_comm]
  classed := by
    simp only [Edit.classes_amend_ne_nil, h.classed, reached_concat, hn, and_true, exists_or,
      eq_comm]

end Traced

theorem traced_edited (edits : List Edit) (hx : (edited edits).element? n = some x) :
    Traced edits n x := by
  have h := contents_edited (P := Traced) .root (fun edits e tag he => .create he)
    (fun edits e n x hn h => h.amend hn e) edits hx
  exact ⟨h.once, h.tag, h.named, h.classed⟩

end Document
end Scene.Svg
