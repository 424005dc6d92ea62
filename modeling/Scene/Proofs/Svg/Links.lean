import Mathlib.Data.List.Nodup
import Mathlib.Tactic.Common
import Scene.Svg.Document

/-! What each operation on a document does to its links: to the children of every element, and to
its parent. The two sides say the same in every document that operations lead to. -/
namespace Scene.Svg

@[ext] theorem NodeId.ext {a b : NodeId} (h : a.index = b.index) : a = b := by
  cases a
  cases b
  simpa using h

namespace Document
variable {d : Document} {n m p c old new : NodeId}

/-! Views of a changed element. -/

theorem element?_modify (d : Document) (n m : NodeId) (f : Element → Element) :
    (d.modify n f).element? m = if n = m then (d.element? m).map f else d.element? m := by
  simp only [modify, element?, Array.getElem?_modify, NodeId.ext_iff]

@[simp] theorem contains_modify (f : Element → Element) :
    (d.modify n f).contains m = d.contains m := by
  simp [modify, contains]

theorem contains_eq_isSome (d : Document) (n : NodeId) :
    d.contains n = (d.element? n).isSome := by
  rw [Bool.eq_iff_iff]
  simp [contains, element?]

theorem children_setChildren (d : Document) (n m : NodeId) (g : List NodeId → List NodeId) :
    (d.modify n fun e => { e with children := g e.children }).children m =
      if n = m ∧ d.contains m then g (d.children m) else d.children m := by
  rw [children, element?_modify, contains_eq_isSome]
  by_cases h : n = m
  · cases he : d.element? m <;> simp [h, he, children]
  · simp [h, children]

theorem parent?_setParent (d : Document) (n m : NodeId) (p : Option NodeId) :
    (d.modify n fun e => { e with parent := p }).parent? m =
      if n = m ∧ d.contains m then p else d.parent? m := by
  rw [parent?, element?_modify, contains_eq_isSome]
  by_cases h : n = m
  · cases he : d.element? m <;> simp [h, he, parent?]
  · simp [h, parent?]

theorem children_modify {f : Element → Element} (hf : ∀ e, (f e).children = e.children) :
    (d.modify n f).children m = d.children m := by
  rw [children, element?_modify]
  by_cases h : n = m
  · cases he : d.element? m <;> simp [h, he, hf, children]
  · simp [h, children]

theorem parent?_modify {f : Element → Element} (hf : ∀ e, (f e).parent = e.parent) :
    (d.modify n f).parent? m = d.parent? m := by
  rw [parent?, element?_modify]
  by_cases h : n = m
  · cases he : d.element? m <;> simp [h, he, hf, parent?]
  · simp [h, parent?]

theorem children_setParent (d : Document) (n m : NodeId) (p : Option NodeId) :
    (d.modify n fun e => { e with parent := p }).children m = d.children m :=
  children_modify fun _ => rfl

theorem parent?_setChildren (d : Document) (n m : NodeId) (g : Element → List NodeId) :
    (d.modify n fun e => { e with children := g e }).parent? m = d.parent? m :=
  parent?_modify fun _ => rfl

theorem contains_of_parent? (h : d.parent? n = some p) : d.contains n = true := by
  rw [contains_eq_isSome]
  cases he : d.element? n with
  | none => simp [parent?, he] at h
  | some e => rfl

theorem contains_of_mem_children (h : c ∈ d.children p) : d.contains p = true := by
  rw [contains_eq_isSome]
  cases he : d.element? p with
  | none => simp [children, he] at h
  | some e => rfl

/-! New elements. -/

theorem element?_createElement (d : Document) (tag : String) (m : NodeId) :
    (d.createElement tag).2.element? m =
      if m.index = d.nodes.size then some (.create tag) else d.element? m := by
  simp [createElement, element?, Array.getElem?_push]

theorem contains_createElement (h : d.contains n = true) (tag : String) :
    (d.createElement tag).2.contains n = true := by
  simp only [contains, decide_eq_true_eq] at h
  simp only [contains, createElement, Array.size_push, decide_eq_true_eq]
  omega

theorem children_createElement (d : Document) (tag : String) (m : NodeId) :
    (d.createElement tag).2.children m = d.children m := by
  rw [children, element?_createElement]
  by_cases h : m.index = d.nodes.size
  · simp [h, children, element?, Element.create]
  · simp [h, children]

theorem parent?_createElement (d : Document) (tag : String) (m : NodeId) :
    (d.createElement tag).2.parent? m = d.parent? m := by
  rw [parent?, element?_createElement]
  by_cases h : m.index = d.nodes.size
  · simp [h, parent?, element?, Element.create]
  · simp [h, parent?]

/-! Changes of what an element holds. -/

@[simp] theorem children_setAttribute (d : Document) (n m : NodeId) (name value : String) :
    (d.setAttribute n name value).children m = d.children m :=
  children_modify fun _ => rfl

@[simp] theorem parent?_setAttribute (d : Document) (n m : NodeId) (name value : String) :
    (d.setAttribute n name value).parent? m = d.parent? m :=
  parent?_modify fun _ => rfl

@[simp] theorem children_addClass (d : Document) (n m : NodeId) (name : String) :
    (d.addClass n name).children m = d.children m :=
  children_modify fun e => by split <;> rfl

@[simp] theorem parent?_addClass (d : Document) (n m : NodeId) (name : String) :
    (d.addClass n name).parent? m = d.parent? m :=
  parent?_modify fun e => by split <;> rfl

@[simp] theorem children_setText (d : Document) (n m : NodeId) (text : String) :
    (d.setText n text).children m = d.children m :=
  children_modify fun _ => rfl

@[simp] theorem parent?_setText (d : Document) (n m : NodeId) (text : String) :
    (d.setText n text).parent? m = d.parent? m :=
  parent?_modify fun _ => rfl

/-- Children and parents say the same, and no child stands twice. -/
structure Linked (d : Document) : Prop where
  agree : ∀ c p, c ∈ d.children p ↔ d.parent? c = some p
  nodup : ∀ p, (d.children p).Nodup

/-- What has the same links is as well linked. -/
theorem Linked.congr {d' : Document} (h : d.Linked) (hc : ∀ m, d'.children m = d.children m)
    (hp : ∀ m, d'.parent? m = d.parent? m) : d'.Linked where
  agree c p := by rw [hc, hp, h.agree]
  nodup p := by rw [hc]; exact h.nodup p

theorem linked_create : create.Linked := by
  have hlinks (m : NodeId) : create.children m = [] ∧ create.parent? m = none := by
    obtain ⟨_ | i⟩ := m <;> exact ⟨rfl, rfl⟩
  constructor
  · intro c p
    simp [(hlinks p).1, (hlinks c).2]
  · intro p
    simp [(hlinks p).1]

namespace Linked

theorem contains_parent (h : d.Linked) (hp : d.parent? c = some p) : d.contains p = true :=
  contains_of_mem_children ((h.agree c p).mpr hp)

theorem contains_child (h : d.Linked) (hc : c ∈ d.children p) : d.contains c = true :=
  contains_of_parent? ((h.agree c p).mp hc)

/-- An element is among the children of its parent only. -/
theorem filter_children (h : d.Linked) (hp : d.parent? n ≠ some m) :
    (d.children m).filter (· ≠ n) = d.children m := by
  refine List.filter_eq_self.mpr fun c hc => ?_
  have hne : c ≠ n := by
    rintro rfl
    exact hp ((h.agree c m).mp hc)
  simpa using hne

end Linked

/-! Taking an element out. -/

@[simp] theorem contains_detach (d : Document) (n m : NodeId) :
    (d.detach n).1.contains m = d.contains m := by
  rw [detach]
  split <;> simp [unlink]

theorem children_detach (h : d.Linked) (n m : NodeId) :
    (d.detach n).1.children m = (d.children m).filter (· ≠ n) := by
  cases hp : d.parent? n with
  | none =>
    have hm : d.parent? n ≠ some m := by simp [hp]
    rw [h.filter_children hm, detach, hp]
  | some p =>
    simp only [detach, hp, unlink]
    rw [children_setParent, children_setChildren]
    by_cases hm : p = m
    · subst hm
      simp [h.contains_parent hp]
    · have hm' : d.parent? n ≠ some m := by simp [hp, hm]
      rw [if_neg (by simp [hm]), h.filter_children hm']

theorem parent?_detach (d : Document) (n m : NodeId) :
    (d.detach n).1.parent? m = if m = n then none else d.parent? m := by
  cases hp : d.parent? n with
  | none =>
    simp only [detach, hp]
    split
    · next h => rw [h, hp]
    · rfl
  | some p =>
    simp only [detach, hp, unlink]
    rw [parent?_setParent, parent?_setChildren, contains_modify]
    by_cases hm : m = n
    · simp [hm, contains_of_parent? hp]
    · simp [hm, Ne.symm hm]

theorem Linked.detach (h : d.Linked) (n : NodeId) : (d.detach n).1.Linked where
  agree c p := by
    rw [children_detach h, parent?_detach, List.mem_filter, h.agree]
    by_cases hc : c = n <;> simp [hc]
  nodup p := by
    rw [children_detach h]
    exact (h.nodup p).filter _

/-! Putting an element under another. -/

theorem appendChild_eq (hp : d.contains p = true) (hc : d.contains c = true) (hne : p ≠ c) :
    d.appendChild p c =
      ((((d.detach c).1.modify p fun e => { e with children := e.children ++ [c] }).modify c
        fun e => { e with parent := some p }), true) := by
  simp [appendChild, hp, hc, hne]

theorem appendChild_refused (h : ¬ (d.contains p = true ∧ d.contains c = true ∧ p ≠ c)) :
    d.appendChild p c = (d, false) := by
  rw [appendChild, if_pos]
  by_contra hno
  simp only [Bool.or_eq_true, Bool.not_eq_true', decide_eq_true_eq] at hno
  grind

@[simp] theorem contains_appendChild (d : Document) (p c m : NodeId) :
    (d.appendChild p c).1.contains m = d.contains m := by
  rw [appendChild]
  split <;> simp

theorem children_appendChild (h : d.Linked) (hp : d.contains p = true) (hc : d.contains c = true)
    (hne : p ≠ c) (m : NodeId) :
    (d.appendChild p c).1.children m =
      (d.children m).filter (· ≠ c) ++ if m = p then [c] else [] := by
  rw [appendChild_eq hp hc hne, children_setParent,
    children_setChildren _ _ _ (· ++ [c]), children_detach h, contains_detach]
  by_cases hm : m = p
  · simp [hm, hp]
  · simp [hm, Ne.symm hm]

theorem parent?_appendChild (hp : d.contains p = true) (hc : d.contains c = true) (hne : p ≠ c)
    (m : NodeId) :
    (d.appendChild p c).1.parent? m = if m = c then some p else d.parent? m := by
  rw [appendChild_eq hp hc hne, parent?_setParent, parent?_setChildren, parent?_detach,
    contains_modify, contains_detach]
  by_cases hm : m = c
  · simp [hm, hc]
  · simp [hm, Ne.symm hm]

theorem Linked.appendChild (h : d.Linked) (p c : NodeId) : (d.appendChild p c).1.Linked := by
  by_cases hok : d.contains p = true ∧ d.contains c = true ∧ p ≠ c
  · obtain ⟨hp, hc, hne⟩ := hok
    constructor
    · intro a b
      rw [children_appendChild h hp hc hne, parent?_appendChild hp hc hne, List.mem_append,
        List.mem_filter, h.agree]
      by_cases ha : a = c
      · by_cases hb : b = p
        · simp [ha, hb]
        · simp [ha, hb, Ne.symm hb]
      · by_cases hb : b = p <;> simp [ha, hb]
    · intro b
      rw [children_appendChild h hp hc hne]
      have hold : ((d.children b).filter (· ≠ c)).Nodup := (h.nodup b).filter _
      split
      · exact List.nodup_append.mpr ⟨hold, List.nodup_singleton c, by simp⟩
      · simpa using hold
  · rw [appendChild_refused hok]
    exact h

/-! Putting an element in the place of another. -/

theorem mem_substitute {l : List NodeId} (hl : l.Nodup) (hnew : new ∉ l) (x : NodeId) :
    x ∈ substitute old new l ↔ (x = new ∧ old ∈ l) ∨ (x ∈ l ∧ x ≠ old) := by
  induction l with
  | nil => simp [substitute]
  | cons a l ih =>
    obtain ⟨ha, hl⟩ := List.nodup_cons.mp hl
    rw [List.mem_cons, not_or] at hnew
    rw [substitute]
    split
    · next hold => grind
    · next hold => grind

theorem nodup_substitute {l : List NodeId} (hl : l.Nodup) (hnew : new ∉ l) :
    (substitute old new l).Nodup := by
  induction l with
  | nil => exact hl
  | cons a l ih =>
    obtain ⟨ha, hl⟩ := List.nodup_cons.mp hl
    rw [List.mem_cons, not_or] at hnew
    rw [substitute]
    split
    · exact List.nodup_cons.mpr ⟨hnew.2, hl⟩
    · refine List.nodup_cons.mpr ⟨?_, ih hl hnew.2⟩
      rw [mem_substitute hl hnew.2]
      grind

theorem substitute_of_not_mem {l : List NodeId} (h : old ∉ l) : substitute old new l = l := by
  induction l with
  | nil => rfl
  | cons a l ih =>
    rw [List.mem_cons, not_or] at h
    rw [substitute, if_neg (Ne.symm h.1), ih h.2]

theorem replace_eq (hp : d.parent? old = some p) (hnew : d.contains new = true)
    (hne : old ≠ new) :
    d.replace old new =
      (((((d.detach new).1.modify p fun e =>
        { e with children := substitute old new e.children }).modify old
          fun e => { e with parent := none }).modify new fun e => { e with parent := some p }),
        true) := by
  simp [replace, hp, hnew, hne]

theorem replace_refused
    (h : ¬ ((d.parent? old).isSome = true ∧ d.contains new = true ∧ old ≠ new)) :
    d.replace old new = (d, false) := by
  rw [replace]
  cases hp : d.parent? old with
  | none => rfl
  | some p =>
    refine if_pos ?_
    simp only [Bool.or_eq_true, Bool.not_eq_true', decide_eq_true_eq]
    grind

@[simp] theorem contains_replace (d : Document) (old new m : NodeId) :
    (d.replace old new).1.contains m = d.contains m := by
  rw [replace]
  split
  · rfl
  · dsimp only
    split <;> simp

theorem children_replace (h : d.Linked) (hp : d.parent? old = some p)
    (hnew : d.contains new = true) (hne : old ≠ new) (m : NodeId) :
    (d.replace old new).1.children m =
      substitute old new ((d.children m).filter (· ≠ new)) := by
  rw [replace_eq hp hnew hne, children_setParent, children_setParent,
    children_setChildren _ _ _ (substitute old new), children_detach h, contains_detach]
  by_cases hm : p = m
  · subst hm
    simp [h.contains_parent hp]
  · have hold : old ∉ (d.children m).filter (· ≠ new) := by
      intro hmem
      have := (h.agree old m).mp (List.mem_of_mem_filter hmem)
      exact hm (by simpa [hp] using this)
    rw [if_neg (by simp [hm]), substitute_of_not_mem hold]

theorem parent?_replace (hp : d.parent? old = some p) (hnew : d.contains new = true)
    (hne : old ≠ new) (m : NodeId) :
    (d.replace old new).1.parent? m =
      if m = new then some p else if m = old then none else d.parent? m := by
  rw [replace_eq hp hnew hne, parent?_setParent, parent?_setParent, parent?_setChildren,
    parent?_detach]
  simp only [contains_modify, contains_detach]
  by_cases hm : m = new
  · simp [hm, hnew]
  · by_cases hm' : m = old
    · simp [hm', hne, Ne.symm hne, contains_of_parent? hp]
    · simp [hm, hm', Ne.symm hm, Ne.symm hm']

theorem Linked.replace (h : d.Linked) (old new : NodeId) : (d.replace old new).1.Linked := by
  by_cases hok : (d.parent? old).isSome = true ∧ d.contains new = true ∧ old ≠ new
  · obtain ⟨hsome, hnew, hne⟩ := hok
    obtain ⟨p, hp⟩ := Option.isSome_iff_exists.mp hsome
    have hold (b : NodeId) : ((d.children b).filter (· ≠ new)).Nodup := (h.nodup b).filter _
    have hout (b : NodeId) : new ∉ (d.children b).filter (· ≠ new) := by simp
    constructor
    · intro a b
      rw [children_replace h hp hnew hne, parent?_replace hp hnew hne,
        mem_substitute (hold b) (hout b), List.mem_filter, List.mem_filter, h.agree, h.agree, hp]
      by_cases ha : a = new
      · simp [ha, hne]
      · by_cases ha' : a = old <;> simp [ha, ha', hne]
    · intro b
      rw [children_replace h hp hnew hne]
      exact nodup_substitute (hold b) (hout b)
  · rw [replace_refused hok]
    exact h

end Document
end Scene.Svg
