import Scene.Proofs.Svg.Links

/-! New elements below an old one: a block at the end of the arena, some of whose elements become
the last children of an element that was there. -/
namespace Scene.Svg

def Element.adopt (e : Element) (cs : List NodeId) : Element :=
  { e with children := e.children ++ cs }

theorem Element.adopt_adopt (e : Element) (cs ds : List NodeId) :
    (e.adopt cs).adopt ds = e.adopt (cs ++ ds) := by
  simp [adopt]

theorem Element.adopt_nil (e : Element) : e.adopt [] = e := by
  simp [adopt]

namespace Document
variable {d d' : Document} {n parent : NodeId}

/-- A block of elements at the end; `parent` gets those at `starts` as its last children. -/
def graft (d : Document) (parent : NodeId) (starts : List NodeId) (block : List Element) :
    Document :=
  ⟨(d.modify parent fun e => e.adopt starts).nodes ++ block.toArray⟩

def nextId (d : Document) : NodeId := ⟨d.nodes.size⟩

theorem ext_element? (h : ∀ n, d.element? n = d'.element? n) : d = d' := by
  cases d
  cases d'
  rw [mk.injEq]
  exact Array.ext_getElem? fun i => h ⟨i⟩

variable (starts starts' : List NodeId) (block block' : List Element)

@[simp] theorem size_graft :
    (d.graft parent starts block).nodes.size = d.nodes.size + block.length := by
  simp [graft, modify]

theorem contains_graft (h : d.contains n = true) (parent : NodeId) (starts : List NodeId)
    (block : List Element) : (d.graft parent starts block).contains n = true := by
  simp only [contains, decide_eq_true_eq] at h
  simp only [contains, size_graft, decide_eq_true_eq]
  omega

theorem element?_graft (d : Document) (n parent : NodeId) :
    (d.graft parent starts block).element? n =
      if n.index < d.nodes.size then
        if parent = n then (d.element? n).map fun e => e.adopt starts else d.element? n
      else block[n.index - d.nodes.size]? := by
  have hmodified := element?_modify d parent n fun e => e.adopt starts
  rw [← hmodified]
  simp [graft, element?, Array.getElem?_append, modify]

theorem index_lt_of_contains (h : d.contains n = true) : n.index < d.nodes.size := by
  simpa [contains] using h

theorem graft_nil (d : Document) (parent : NodeId) : d.graft parent [] [] = d := by
  refine ext_element? fun n => ?_
  rw [element?_graft]
  split
  · simp [Element.adopt_nil]
  · next hnew => simp [element?, Array.getElem?_eq_none (Nat.le_of_not_lt hnew)]

/-- One graft after another below the same element is one graft. -/
theorem graft_graft (h : d.contains parent = true) :
    (d.graft parent starts block).graft parent starts' block' =
      d.graft parent (starts ++ starts') (block ++ block') := by
  have hparent := index_lt_of_contains h
  refine ext_element? fun n => ?_
  rw [element?_graft, element?_graft, element?_graft, size_graft]
  by_cases hold : n.index < d.nodes.size
  · rw [if_pos (by omega), if_pos hold, if_pos hold]
    by_cases hn : parent = n
    · simp [hn, Function.comp_def, Element.adopt_adopt]
    · simp [hn]
  · have hne : parent ≠ n := fun heq => hold (heq ▸ hparent)
    rw [if_neg hold, if_neg hold, if_neg hne, List.getElem?_append]
    by_cases hfirst : n.index < d.nodes.size + block.length
    · rw [if_pos hfirst, if_pos (by omega)]
    · rw [if_neg hfirst, if_neg (by omega), Nat.sub_add_eq]

/-- What is grafted below a new element becomes a part of its block. -/
theorem graft_below (d : Document) (parent : NodeId) (e : Element) :
    (d.graft parent starts [e]).graft d.nextId starts' block' =
      d.graft parent starts (e.adopt starts' :: block') := by
  refine ext_element? fun n => ?_
  rw [element?_graft, element?_graft, element?_graft, size_graft, List.length_singleton]
  obtain hold | hnew | hlater := Nat.lt_trichotomy n.index d.nodes.size
  · have hne : d.nextId ≠ n := fun heq => by simp [← heq, nextId] at hold
    rw [if_pos (by omega), if_pos hold, if_pos hold, if_neg hne]
  · have heq : d.nextId = n := NodeId.ext hnew.symm
    rw [if_pos (by omega), if_pos heq, if_neg (by omega), if_neg (by omega), hnew]
    simp
  · have hshift : n.index - d.nodes.size = n.index - (d.nodes.size + 1) + 1 := by omega
    rw [if_neg (by omega), if_neg (by omega), hshift, List.getElem?_cons_succ]

theorem modify_graft (d : Document) (parent : NodeId) (e : Element) (f : Element → Element) :
    (d.graft parent starts [e]).modify d.nextId f = d.graft parent starts [f e] := by
  refine ext_element? fun n => ?_
  rw [element?_modify, element?_graft, element?_graft]
  by_cases heq : d.nextId = n
  · subst heq
    simp [nextId]
  · have hne : n.index ≠ d.nodes.size := fun h => heq (NodeId.ext h.symm)
    rw [if_neg heq]
    by_cases hold : n.index < d.nodes.size
    · rw [if_pos hold, if_pos hold]
    · have hshift : n.index - d.nodes.size = n.index - (d.nodes.size + 1) + 1 := by omega
      rw [if_neg hold, if_neg hold, hshift, List.getElem?_cons_succ, List.getElem?_cons_succ]

theorem detach_createElement (d : Document) (tag : String) :
    ((d.createElement tag).2.detach d.nextId).1 = (d.createElement tag).2 := by
  have hout : (d.createElement tag).2.parent? d.nextId = none := by
    rw [parent?_createElement]
    simp [parent?, element?, nextId]
  rw [detach, hout]

theorem append_eq_graft (h : d.contains parent = true) (tag : String) :
    d.append parent tag =
      (d.nextId,
        d.graft parent [d.nextId] [{ Element.create tag with parent := some parent }]) := by
  have hparent := index_lt_of_contains h
  have hne : parent ≠ d.nextId := fun heq => by simp [heq, nextId] at hparent
  have hnew : (d.createElement tag).2.contains d.nextId = true := by
    simp [contains, createElement, nextId]
  have hmoved := appendChild_eq (contains_createElement h tag) hnew hne
  rw [detach_createElement] at hmoved
  refine Prod.ext rfl ?_
  change ((d.createElement tag).2.appendChild parent d.nextId).1 = _
  rw [hmoved]
  refine ext_element? fun n => ?_
  rw [element?_modify, element?_modify, element?_createElement, element?_graft]
  obtain hold | hlast | hlater := Nat.lt_trichotomy n.index d.nodes.size
  · have hn : d.nextId ≠ n := fun heq => by simp [← heq, nextId] at hold
    rw [if_neg hn, if_neg (Nat.ne_of_lt hold), if_pos hold]
    rfl
  · have hn : d.nextId = n := NodeId.ext hlast.symm
    subst hn
    rw [if_neg hne, if_pos hlast, if_neg (Nat.not_lt_of_le (Nat.le_of_eq hlast.symm))]
    simp [nextId]
  · have hn : d.nextId ≠ n := fun heq => by simp [← heq, nextId] at hlater
    have hp : parent ≠ n := fun heq => by rw [heq] at hparent; omega
    have hout : d.element? n = none := by simpa [element?] using Nat.le_of_lt hlater
    have hshift : n.index - d.nodes.size = n.index - (d.nodes.size + 1) + 1 := by omega
    rw [if_neg hn, if_neg hp, if_neg (Nat.ne_of_gt hlater), if_neg (by omega), hout, hshift,
      List.getElem?_cons_succ, List.getElem?_nil]

end Document
end Scene.Svg
