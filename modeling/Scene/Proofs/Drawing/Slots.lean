import Scene.Proofs.Drawing.Painting
import Scene.Proofs.Svg.Exchange

/-! Slots: where a picture stands in a document. A slot is a row of elements that no link leads out
of, so it shows its picture as long as none of these elements changes. -/
namespace Scene
open Svg

namespace Svg.Document.Holds
variable {d d' : Document} {lo : Nat} {block : List Element}

theorem element?_eq (h : d.Holds lo block) {m : NodeId} (hlo : lo ≤ m.index) :
    ∀ e, block[m.index - lo]? = some e → d.element? m = some e := by
  intro e he
  have hm : (⟨lo + (m.index - lo)⟩ : NodeId) = m := NodeId.ext (Nat.add_sub_cancel' hlo)
  rw [← hm]
  exact h _ e he

theorem congr (h : d.Holds lo block)
    (hsame : ∀ i < block.length, d'.element? ⟨lo + i⟩ = d.element? ⟨lo + i⟩) :
    d'.Holds lo block := by
  intro i e he
  rw [hsame i (List.getElem?_eq_some_iff.mp he).1]
  exact h i e he

end Svg.Document.Holds

namespace Picture
variable {α : Type}

theorem mem_starts {c : NodeId} {lo : Nat} {ps : List (Picture α)} (h : c ∈ starts lo ps) :
    lo ≤ c.index ∧ c.index < lo + sizeAll ps := by
  induction ps generalizing lo with
  | nil => simp [starts] at h
  | cons p ps ih =>
    have hpos := p.size_pos
    rw [sizeAll]
    rcases List.mem_cons.mp h with rfl | hrest
    · dsimp only
      omega
    · have := ih hrest
      omega

variable [Scalar α]

theorem parent_head (parent : NodeId) (lo : Nat) (p : Picture α) :
    (p.elements parent lo)[0]?.bind (·.parent) = some parent := by
  cases p <;> rfl

mutual

theorem children_within (parent : NodeId) (lo : Nat) :
    (p : Picture α) → ∀ e ∈ p.elements parent lo, ∀ c ∈ e.children,
      lo ≤ c.index ∧ c.index < lo + p.size
  | .sketch s, e, he, c, hc => by
    obtain rfl := List.mem_singleton.mp he
    cases hc
  | .group x y parts, e, he, c, hc => by
    rw [size]
    rcases List.mem_cons.mp he with rfl | hrest
    · have := mem_starts hc
      omega
    · have := children_withinAll ⟨lo⟩ (lo + 1) parts e hrest c hc
      omega

theorem children_withinAll (parent : NodeId) (lo : Nat) :
    (ps : List (Picture α)) → ∀ e ∈ elementsAll parent lo ps, ∀ c ∈ e.children,
      lo ≤ c.index ∧ c.index < lo + sizeAll ps
  | [], e, he, _, _ => by cases he
  | p :: ps, e, he, c, hc => by
    rw [sizeAll]
    rcases List.mem_append.mp he with hfirst | hrest
    · have := children_within parent lo p e hfirst c hc
      omega
    · have := children_withinAll parent (lo + p.size) ps e hrest c hc
      omega

end

mutual

/-- All elements of a picture hang from its first. -/
theorem below_of_holds {d : Document} {parent : NodeId} :
    (p : Picture α) → {lo : Nat} → d.Holds lo (p.elements parent lo) → (i : Nat) → i < p.size →
      d.Below ⟨lo⟩ ⟨lo + i⟩
  | p, lo, _, 0, _ => .refl
  | .sketch s, lo, _, i + 1, hi => absurd (Nat.lt_of_succ_lt_succ hi) (Nat.not_lt_zero i)
  | .group x y parts, lo, h, i + 1, hi => by
    rw [elements] at h
    rw [size] at hi
    have hhead : d.children ⟨lo⟩ = starts (lo + 1) parts := by
      rw [Document.children, h.head]
    obtain ⟨c, hc, hbelow⟩ := below_of_holdsAll parts h.tail i (Nat.lt_of_succ_lt_succ hi)
    rw [Nat.add_assoc, Nat.add_comm 1] at hbelow
    exact .head (hhead ▸ hc) hbelow

theorem below_of_holdsAll {d : Document} {parent : NodeId} :
    (ps : List (Picture α)) → {lo : Nat} → d.Holds lo (elementsAll parent lo ps) → (i : Nat) →
      i < sizeAll ps → ∃ c ∈ starts lo ps, d.Below c ⟨lo + i⟩
  | [], lo, _, i, hi => absurd hi (Nat.not_lt_zero i)
  | p :: ps, lo, h, i, hi => by
    rw [elementsAll] at h
    rw [sizeAll] at hi
    by_cases hfirst : i < p.size
    · exact ⟨⟨lo⟩, List.mem_cons_self, below_of_holds p h.left i hfirst⟩
    · have hright := h.right
      rw [length_elements] at hright
      obtain ⟨c, hc, hbelow⟩ := below_of_holdsAll ps hright (i - p.size) (by omega)
      have hplace : lo + p.size + (i - p.size) = lo + i := by omega
      exact ⟨c, List.mem_cons_of_mem _ hc, hplace ▸ hbelow⟩

end

end Picture

structure Slot (α : Type) where
  node : NodeId
  picture : Picture α

namespace Slot
variable {α : Type} {s t : Slot α} {m : NodeId}

def Covers (s : Slot α) (m : NodeId) : Prop :=
  s.node.index ≤ m.index ∧ m.index < s.node.index + s.picture.size

def Apart (s t : Slot α) : Prop := ∀ m, s.Covers m → ¬ t.Covers m

theorem covers_node (s : Slot α) : s.Covers s.node :=
  ⟨Nat.le_refl _, Nat.lt_add_of_pos_right s.picture.size_pos⟩

theorem Apart.symm (h : s.Apart t) : t.Apart s := fun m ht hs => h m hs ht

variable [Scalar α] {d d' : Document} {parent : NodeId}

structure Filled (d : Document) (parent : NodeId) (s : Slot α) : Prop where
  holds : d.Holds s.node.index (s.picture.elements parent s.node.index)
  behind : parent.index < s.node.index

namespace Filled

theorem exists_element (h : s.Filled d parent) (hm : s.Covers m) :
    ∃ e ∈ s.picture.elements parent s.node.index, d.element? m = some e := by
  have hlt : m.index - s.node.index < (s.picture.elements parent s.node.index).length := by
    obtain ⟨hlo, hhi⟩ := hm
    rw [Picture.length_elements]
    omega
  have he := List.getElem?_eq_getElem hlt
  exact ⟨_, List.getElem_mem hlt, h.holds.element?_eq hm.1 _ he⟩

theorem contains (h : s.Filled d parent) (hm : s.Covers m) : d.contains m = true := by
  obtain ⟨e, -, he⟩ := h.exists_element hm
  rw [Document.contains_eq_isSome, he]
  rfl

theorem ne_parent (h : s.Filled d parent) (hm : s.Covers m) : m ≠ parent := by
  rintro rfl
  exact absurd h.behind (Nat.not_lt_of_le hm.1)

theorem parent?_node (h : s.Filled d parent) : d.parent? s.node = some parent := by
  obtain ⟨e, he, hparent⟩ := Option.bind_eq_some_iff.mp
    (s.picture.parent_head parent s.node.index)
  have hnode : d.element? s.node = some e := h.holds 0 e he
  rw [Document.parent?, hnode]
  exact hparent

/-- Whatever is reached from the start of a slot is in the slot. -/
theorem covers_of_below (h : s.Filled d parent) (hm : d.Below s.node m) : s.Covers m := by
  induction hm with
  | refl => exact s.covers_node
  | @tail n c _ hc ih =>
    obtain ⟨e, hmem, he⟩ := h.exists_element ih
    rw [Document.children, he] at hc
    exact s.picture.children_within parent s.node.index e hmem c hc

theorem below_iff (h : s.Filled d parent) : d.Below s.node m ↔ s.Covers m := by
  refine ⟨h.covers_of_below, fun hm => ?_⟩
  obtain ⟨i, hi⟩ := Nat.exists_eq_add_of_le hm.1
  obtain rfl : m = ⟨s.node.index + i⟩ := NodeId.ext hi
  exact s.picture.below_of_holds h.holds i (Nat.lt_of_add_lt_add_left hm.2)

theorem congr (h : s.Filled d parent) (hsame : ∀ m, s.Covers m → d'.element? m = d.element? m) :
    s.Filled d' parent where
  holds := by
    refine h.holds.congr fun i hi => hsame _ ⟨Nat.le_add_right _ _, ?_⟩
    rw [Picture.length_elements] at hi
    exact Nat.add_lt_add_left hi _
  behind := h.behind

/-- What is written of a slot depends on its picture only. -/
theorem fragmentText (h : s.Filled d parent) (settings : Settings.Writing) :
    d.fragmentText s.node settings =
      .ends ((s.picture.markup settings.classPrefix).write settings.indent 0) := by
  have hlast : d.contains ⟨s.node.index + (s.picture.size - 1)⟩ = true := by
    have hpos := s.picture.size_pos
    refine h.contains ⟨Nat.le_add_right _ _, ?_⟩
    dsimp only
    omega
  have hsize : s.picture.size ≤ d.nodes.size + 1 := by
    have := Document.index_lt_of_contains hlast
    dsimp only at this
    omega
  have hmarkup : d.markup settings.classPrefix s.node =
      .ends (some (s.picture.markup settings.classPrefix)) :=
    Picture.subtree_of_holds settings.classPrefix s.picture h.holds hsize
  rw [Document.fragmentText, hmarkup]
  rfl

/-- A picture grafted below an element fills a slot at the end of the document. -/
theorem graft (hparent : d.contains parent = true) (p : Picture α) :
    (⟨d.nextId, p⟩ : Slot α).Filled
      (d.graft parent [d.nextId] (p.elements parent d.nodes.size)) parent where
  holds := Document.holds_graft d parent _ _
  behind := Document.index_lt_of_contains hparent

/-- So does a picture that takes the place of an earlier child. -/
theorem exchange (hparent : d.contains parent = true) {old : NodeId}
    (hold : d.parent? old = some parent) (hne : parent ≠ old) (p : Picture α) :
    (⟨d.nextId, p⟩ : Slot α).Filled
      (d.exchange parent old (p.elements parent d.nodes.size)) parent := by
  refine (graft hparent p).congr fun m hm => ?_
  have hlt := Document.index_lt_of_contains hparent
  have holdlt := Document.index_lt_of_contains (Document.contains_of_parent? hold)
  have hnew : ¬ m.index < d.nodes.size := Nat.not_lt_of_le hm.1
  have hmp : m ≠ parent := fun heq => hnew (heq ▸ hlt)
  have hmo : m ≠ old := fun heq => hnew (heq ▸ holdlt)
  rw [Document.element?_exchange hparent hold hne (p.parent_head parent _), if_neg hmp, if_neg hmo,
    Document.element?_graft, if_neg hnew, if_neg hnew]

end Filled
end Slot
end Scene
