import Mathlib.Logic.Relation
import Scene.Proofs.Svg.Graft

/-! One child in the place of another. A new block is grafted below an element, and its start then
takes the place of an earlier child; besides that child and its parent, no element changes. -/
namespace Scene.Svg

theorem substitute_eq_set {l : List NodeId} {old new : NodeId} {i : Nat} (hl : l.Nodup)
    (hi : l[i]? = some old) : Document.substitute old new l = l.set i new := by
  induction l generalizing i with
  | nil => simp at hi
  | cons c l ih =>
    obtain ⟨hc, hl⟩ := List.nodup_cons.mp hl
    cases i with
    | zero =>
      obtain rfl : c = old := by simpa using hi
      rw [Document.substitute, if_pos rfl, List.set_cons_zero]
    | succ i =>
      rw [List.getElem?_cons_succ] at hi
      have hne : c ≠ old := fun heq => hc (heq ▸ List.mem_of_getElem? hi)
      rw [Document.substitute, if_neg hne, List.set_cons_succ, ih hl hi]

namespace Document
variable {d : Document} {n m parent old new : NodeId}

/-- What is reached from an element through children, the element included. -/
def Below (d : Document) : NodeId → NodeId → Prop :=
  Relation.ReflTransGen fun n c => c ∈ d.children n

theorem element?_replace_of_siblings (hold : d.parent? old = some parent)
    (hnew : d.parent? new = some parent) (hne : old ≠ new) (hpo : parent ≠ old)
    (hpn : parent ≠ new) (m : NodeId) :
    (d.replace old new).1.element? m =
      if m = parent then (d.element? m).map fun e =>
        { e with children := substitute old new (e.children.filter (· ≠ new)) }
      else if m = old then (d.element? m).map fun e => { e with parent := none }
      else d.element? m := by
  have hdetach : (d.detach new).1 = d.unlink new parent := by rw [detach, hnew]
  rw [replace_eq hold (contains_of_parent? hnew) hne, hdetach, unlink]
  simp only [element?_modify]
  by_cases hm : m = parent
  · subst hm
    simp [Ne.symm hpo, Ne.symm hpn, Function.comp_def]
  · by_cases hmo : m = old
    · subst hmo
      simp [hm, hpo, Ne.symm hne]
    · by_cases hmn : m = new
      · subst hmn
        obtain ⟨e, he, hep⟩ := Option.bind_eq_some_iff.mp hnew
        simp [hm, hmo, hpn, hne, he, ← hep]
      · simp [hm, hmo, Ne.symm hm, Ne.symm hmo, Ne.symm hmn]

/-- Grafts a block below an element, in the place of an earlier child. -/
def exchange (d : Document) (parent old : NodeId) (block : List Element) : Document :=
  ((d.graft parent [d.nextId] block).replace old d.nextId).1

section
variable {block : List Element}

theorem contains_exchange (hm : d.contains m = true) (parent old : NodeId) (block : List Element) :
    (d.exchange parent old block).contains m = true := by
  rw [exchange, contains_replace]
  exact contains_graft hm parent [d.nextId] block

theorem element?_graft_of_ne (hm : d.contains m = true) (hne : m ≠ parent)
    (starts : List NodeId) (block : List Element) :
    (d.graft parent starts block).element? m = d.element? m := by
  rw [element?_graft, if_pos (index_lt_of_contains hm), if_neg (Ne.symm hne)]

theorem children_graft (hparent : d.contains parent = true) (starts : List NodeId)
    (block : List Element) :
    (d.graft parent starts block).children parent = d.children parent ++ starts := by
  obtain ⟨e, he⟩ : ∃ e, d.element? parent = some e :=
    Option.isSome_iff_exists.mp ((contains_eq_isSome d parent).symm.trans hparent)
  rw [children, children, element?_graft, if_pos (index_lt_of_contains hparent), if_pos rfl, he]
  rfl

theorem parent?_graft_nextId (d : Document) (parent : NodeId) (starts : List NodeId)
    (block : List Element) :
    (d.graft parent starts block).parent? d.nextId = block[0]?.bind (·.parent) := by
  have hnew : ¬ d.nextId.index < d.nodes.size := Nat.lt_irrefl _
  rw [parent?, element?_graft, if_neg hnew, nextId, Nat.sub_self]

theorem element?_exchange (hparent : d.contains parent = true) (hold : d.parent? old = some parent)
    (hne : parent ≠ old) (hhead : block[0]?.bind (·.parent) = some parent) (m : NodeId) :
    (d.exchange parent old block).element? m =
      if m = parent then (d.element? m).map fun e =>
        { e with
          children :=
            substitute old d.nextId ((e.children ++ [d.nextId]).filter (· ≠ d.nextId)) }
      else if m = old then (d.element? m).map fun e => { e with parent := none }
      else if m.index < d.nodes.size then d.element? m
      else block[m.index - d.nodes.size]? := by
  have hin := contains_of_parent? hold
  have hlt := index_lt_of_contains hparent
  have hltold := index_lt_of_contains hin
  have hoff (k : NodeId) (hk : k.index < d.nodes.size) : k ≠ d.nextId := by
    rintro rfl
    exact Nat.lt_irrefl _ hk
  have hold' : (d.graft parent [d.nextId] block).parent? old = some parent := by
    rw [parent?, element?_graft_of_ne hin (Ne.symm hne)]
    exact hold
  have hnew' := (parent?_graft_nextId d parent [d.nextId] block).trans hhead
  rw [exchange, element?_replace_of_siblings hold' hnew' (hoff old hltold) hne (hoff parent hlt),
    element?_graft]
  by_cases hm : m = parent
  · subst hm
    simp [hlt, Element.adopt, Function.comp_def]
  · by_cases hmo : m = old
    · subst hmo
      simp [hm, hltold, hne]
    · simp [hm, hmo, Ne.symm hm]

/-- The new child stands where the old one stood. -/
theorem children_exchange (hparent : d.contains parent = true)
    (hold : d.parent? old = some parent) (hne : parent ≠ old)
    (hhead : block[0]?.bind (·.parent) = some parent)
    (hin : ∀ c ∈ d.children parent, d.contains c = true) (hnodup : (d.children parent).Nodup)
    {i : Nat} (hi : (d.children parent)[i]? = some old) :
    (d.exchange parent old block).children parent =
      (d.children parent).set i d.nextId := by
  obtain ⟨f, hf⟩ : ∃ f, d.element? parent = some f :=
    Option.isSome_iff_exists.mp ((contains_eq_isSome d parent).symm.trans hparent)
  have hchildren : d.children parent = f.children := by rw [children, hf]
  have hkept : (f.children ++ [d.nextId]).filter (· ≠ d.nextId) = f.children := by
    have hall : f.children.filter (· ≠ d.nextId) = f.children := by
      refine List.filter_eq_self.mpr fun c hc => ?_
      have hlt := index_lt_of_contains (hin c (hchildren ▸ hc))
      have hoff : c ≠ d.nextId := by
        rintro rfl
        exact Nat.lt_irrefl _ hlt
      simpa using hoff
    rw [List.filter_append, hall]
    simp
  rw [children, element?_exchange hparent hold hne hhead, if_pos rfl, hf]
  simp only [Option.map_some, hkept]
  rw [hchildren] at hnodup hi ⊢
  exact substitute_eq_set hnodup hi

/-- Besides the parent and the child that is taken out, no element of before changes. -/
theorem element?_exchange_of_ne (hparent : d.contains parent = true)
    (hold : d.parent? old = some parent) (hne : parent ≠ old)
    (hhead : block[0]?.bind (·.parent) = some parent)
    (hm : d.contains m = true) (hmp : m ≠ parent) (hmo : m ≠ old) :
    (d.exchange parent old block).element? m = d.element? m := by
  rw [element?_exchange hparent hold hne hhead, if_neg hmp, if_neg hmo,
    if_pos (index_lt_of_contains hm)]

end

end Document
end Scene.Svg
