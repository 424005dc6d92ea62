import Scene.Proofs.Svg.Edit

/-! Moving elements. A move that succeeds changes the links that it speaks of, wherever the elements
stood before, and leaves all else as it is; one that is refused changes nothing. -/
namespace Scene.Svg

def Element.loose (e : Element) : Element := { e with children := [], parent := none }

namespace Document
variable {d d' d'' : Document} {n p c old new : NodeId}

def SameContents (d d' : Document) : Prop :=
  ∀ n, (d'.element? n).map Element.loose = (d.element? n).map Element.loose

namespace SameContents

theorem refl (d : Document) : d.SameContents d := fun _ => rfl

theorem trans (h : d.SameContents d') (h' : d'.SameContents d'') : d.SameContents d'' :=
  fun n => (h' n).trans (h n)

theorem modify (d : Document) (n : NodeId) {f : Element → Element}
    (hf : ∀ e, (f e).loose = e.loose) : d.SameContents (d.modify n f) := by
  intro m
  rw [element?_modify]
  split
  · simp [Function.comp_def, hf]
  · rfl

theorem setParent (d : Document) (n : NodeId) (p : Option NodeId) :
    d.SameContents (d.modify n fun e => { e with parent := p }) :=
  modify d n fun _ => rfl

theorem setChildren (d : Document) (n : NodeId) (g : List NodeId → List NodeId) :
    d.SameContents (d.modify n fun e => { e with children := g e.children }) :=
  modify d n fun _ => rfl

theorem detach (d : Document) (n : NodeId) : d.SameContents (d.detach n).1 := by
  rw [Document.detach]
  split
  · next p _ => exact (setChildren d p (List.filter (· ≠ n))).trans (setParent _ n none)
  · exact refl d

/-- Moved or refused. -/
theorem appendChild (d : Document) (p c : NodeId) : d.SameContents (d.appendChild p c).1 := by
  rw [Document.appendChild]
  split
  · exact refl d
  · exact ((detach d c).trans (setChildren _ p (· ++ [c]))).trans (setParent _ c (some p))

theorem replace (d : Document) (old new : NodeId) : d.SameContents (d.replace old new).1 := by
  rw [Document.replace]
  split
  · exact refl d
  · next p _ =>
    split
    · exact refl d
    · exact (((detach d new).trans (setChildren _ p (substitute old new))).trans
        (setParent _ old none)).trans (setParent _ new (some p))

end SameContents

/-- Of the links of a document only those of these elements differ, and they are gone from all
children but those of `place`. -/
structure MovesOnly (d d' : Document) (moved : List NodeId) (place : Option NodeId) : Prop where
  children_eq (m : NodeId) (hm : place ≠ some m) :
    d'.children m = (d.children m).filter (· ∉ moved)
  parent?_eq (m : NodeId) (hm : m ∉ moved) : d'.parent? m = d.parent? m
  contents : d.SameContents d'

/-! When a move is refused. -/

theorem appendChild_eq_true_iff :
    (d.appendChild p c).2 = true ↔ d.contains p = true ∧ d.contains c = true ∧ p ≠ c := by
  by_cases hok : d.contains p = true ∧ d.contains c = true ∧ p ≠ c
  · simp [appendChild_eq hok.1 hok.2.1 hok.2.2, hok]
  · simp [appendChild_refused hok, hok]

theorem replace_eq_true_iff : (d.replace old new).2 = true ↔
    (d.parent? old).isSome = true ∧ d.contains new = true ∧ old ≠ new := by
  by_cases hok : (d.parent? old).isSome = true ∧ d.contains new = true ∧ old ≠ new
  · obtain ⟨p, hp⟩ := Option.isSome_iff_exists.mp hok.1
    simp [replace_eq hp hok.2.1 hok.2.2, hok]
  · simp [replace_refused hok, hok]

theorem detach_eq_true_iff : (d.detach n).2 = true ↔ (d.parent? n).isSome = true := by
  rw [detach]
  cases d.parent? n <;> simp

theorem eq_of_appendChild_false (h : d.appendChild p c = (d', false)) : d' = d := by
  have hno : ¬ (d.appendChild p c).2 = true := by simp [h]
  rw [appendChild_refused (appendChild_eq_true_iff.not.mp hno)] at h
  exact (Prod.mk.inj h).1.symm

theorem eq_of_replace_false (h : d.replace old new = (d', false)) : d' = d := by
  have hno : ¬ (d.replace old new).2 = true := by simp [h]
  rw [replace_refused (replace_eq_true_iff.not.mp hno)] at h
  exact (Prod.mk.inj h).1.symm

theorem eq_of_detach_false (h : d.detach n = (d', false)) : d' = d := by
  rw [detach] at h
  split at h
  · simp at h
  · exact (Prod.mk.inj h).1.symm

/-! What a move does. -/

theorem appendChild_moves (hl : d.Linked) (h : d.appendChild p c = (d', true)) :
    d'.children p = (d.children p).filter (· ≠ c) ++ [c] ∧ d'.parent? c = some p ∧
      d.MovesOnly d' [c] (some p) := by
  obtain ⟨hp, hc, hne⟩ := appendChild_eq_true_iff.mp (congrArg Prod.snd h)
  obtain rfl : (d.appendChild p c).1 = d' := congrArg Prod.fst h
  refine ⟨?_, ?_, fun m hm => ?_, fun m hm => ?_, .appendChild d p c⟩
  · simp [children_appendChild hl hp hc hne]
  · simp [parent?_appendChild hp hc hne]
  · have hmp : m ≠ p := fun heq => hm (heq ▸ rfl)
    simp [children_appendChild hl hp hc hne, hmp]
  · rw [List.mem_singleton] at hm
    rw [parent?_appendChild hp hc hne, if_neg hm]

theorem substitute_append {before after : List NodeId} (h : old ∉ before) :
    substitute old new (before ++ old :: after) = before ++ new :: after := by
  induction before with
  | nil => simp [substitute]
  | cons a before ih =>
    rw [List.mem_cons, not_or] at h
    rw [List.cons_append, substitute, if_neg (Ne.symm h.1), ih h.2, List.cons_append]

theorem replace_moves (hl : d.Linked) (h : d.replace old new = (d', true)) :
    ∃ p before after, d.parent? old = some p ∧
      (d.children p).filter (· ≠ new) = before ++ old :: after ∧
      d'.children p = before ++ new :: after ∧ d'.parent? old = none ∧ d'.parent? new = some p ∧
      d.MovesOnly d' [old, new] (some p) := by
  obtain ⟨hsome, hnew, hne⟩ := replace_eq_true_iff.mp (congrArg Prod.snd h)
  obtain ⟨p, hp⟩ := Option.isSome_iff_exists.mp hsome
  obtain rfl : (d.replace old new).1 = d' := congrArg Prod.fst h
  -- the place of the old element is looked for where the new one is gone already
  have hold : old ∈ (d.children p).filter (· ≠ new) := by
    simpa [hne] using (hl.agree old p).mpr hp
  obtain ⟨before, after, hsplit⟩ := List.append_of_mem hold
  have hbefore : old ∉ before := by
    have hnodup : (before ++ old :: after).Nodup := hsplit ▸ (hl.nodup p).filter _
    exact fun hmem => (List.nodup_append.mp hnodup).2.2 old hmem old List.mem_cons_self rfl
  refine ⟨p, before, after, hp, hsplit, ?_, ?_, ?_, fun m hm => ?_, fun m hm => ?_,
    .replace d old new⟩
  · rw [children_replace hl hp hnew hne, hsplit, substitute_append hbefore]
  · simp [parent?_replace hp hnew hne, hne]
  · simp [parent?_replace hp hnew hne]
  · have hout : old ∉ d.children m := fun hmem =>
      hm (hp.symm.trans ((hl.agree old m).mp hmem))
    have hkept : old ∉ (d.children m).filter (· ≠ new) := fun hmem =>
      hout (List.mem_of_mem_filter hmem)
    rw [children_replace hl hp hnew hne, substitute_of_not_mem hkept]
    refine List.filter_congr fun c hc => ?_
    simp [ne_of_mem_of_not_mem hc hout]
  · simp only [List.mem_cons, List.not_mem_nil, or_false, not_or] at hm
    rw [parent?_replace hp hnew hne, if_neg hm.2, if_neg hm.1]

theorem detach_moves (hl : d.Linked) (h : d.detach n = (d', true)) :
    d'.parent? n = none ∧ d.MovesOnly d' [n] none := by
  obtain rfl : (d.detach n).1 = d' := congrArg Prod.fst h
  refine ⟨by simp [parent?_detach], fun m _ => ?_, fun m hm => ?_, .detach d n⟩
  · simp [children_detach hl]
  · rw [List.mem_singleton] at hm
    rw [parent?_detach, if_neg hm]

/-- Whatever edits led to a document and whatever two elements are named, siblings, parent and child
or missing ones. An element that is appended stands behind the other children. One that replaces
another stands in its place among the children that are left without the new one. All else stays: the
other children less those that are moved, the other parents, and what elements hold besides links.
What is refused changes nothing. -/
theorem moves_exactly (edits : List Edit) (a b : NodeId) (d' : Document) :
    ((edited edits).appendChild a b = (d', true) →
      d'.children a = ((edited edits).children a).filter (· ≠ b) ++ [b] ∧
        d'.parent? b = some a ∧ (edited edits).MovesOnly d' [b] (some a)) ∧
      ((edited edits).replace a b = (d', true) →
        ∃ p before after, (edited edits).parent? a = some p ∧
          ((edited edits).children p).filter (· ≠ b) = before ++ a :: after ∧
          d'.children p = before ++ b :: after ∧ d'.parent? a = none ∧ d'.parent? b = some p ∧
          (edited edits).MovesOnly d' [a, b] (some p)) ∧
      ((edited edits).detach a = (d', true) →
        d'.parent? a = none ∧ (edited edits).MovesOnly d' [a] none) ∧
      ((edited edits).appendChild a b = (d', false) ∨ (edited edits).replace a b = (d', false) ∨
        (edited edits).detach a = (d', false) → d' = edited edits) ∧
      (((edited edits).appendChild a b).2 = true ↔
        (edited edits).contains a = true ∧ (edited edits).contains b = true ∧ a ≠ b) ∧
      (((edited edits).replace a b).2 = true ↔
        ((edited edits).parent? a).isSome = true ∧ (edited edits).contains b = true ∧ a ≠ b) ∧
      (((edited edits).detach a).2 = true ↔ ((edited edits).parent? a).isSome = true) := by
  have hl := linked_edited edits
  refine ⟨appendChild_moves hl, replace_moves hl, detach_moves hl, ?_, appendChild_eq_true_iff,
    replace_eq_true_iff, detach_eq_true_iff⟩
  rintro (h | h | h)
  · exact eq_of_appendChild_false h
  · exact eq_of_replace_false h
  · exact eq_of_detach_false h

def row : List Edit :=
  [.append root "rect", .append root "g", .append root "line", .append ⟨2⟩ "text"]

theorem row_moves :
    (∃ d', (edited row).replace ⟨1⟩ ⟨3⟩ = (d', true) ∧ d'.children root = [⟨3⟩, ⟨2⟩] ∧
      (edited row).MovesOnly d' [⟨1⟩, ⟨3⟩] (some root)) ∧
    (∃ d', (edited row).replace ⟨2⟩ ⟨4⟩ = (d', true) ∧ d'.children root = [⟨1⟩, ⟨4⟩, ⟨3⟩] ∧
      (edited row).MovesOnly d' [⟨2⟩, ⟨4⟩] (some root)) ∧
    (∃ d', (edited row).replace ⟨4⟩ ⟨2⟩ = (d', true) ∧ d'.children ⟨2⟩ = [⟨2⟩] ∧
      (edited row).MovesOnly d' [⟨4⟩, ⟨2⟩] (some ⟨2⟩)) ∧
    (∃ d', (edited row).appendChild root ⟨1⟩ = (d', true) ∧
      d'.children root = [⟨2⟩, ⟨3⟩, ⟨1⟩] ∧ (edited row).MovesOnly d' [⟨1⟩] (some root)) ∧
    (∃ d', (edited row).detach ⟨2⟩ = (d', true) ∧ (edited row).MovesOnly d' [⟨2⟩] none) ∧
    ∃ d', (edited row).replace root ⟨1⟩ = (d', false) ∧ d' = edited row := by
  have hswap (a b p : NodeId) (hdone : ((edited row).replace a b).2 = true)
      (hp : (edited row).parent? a = some p) :
      (edited row).MovesOnly ((edited row).replace a b).1 [a, b] (some p) := by
    obtain ⟨q, -, -, hq, -, -, -, -, hmoves⟩ := (moves_exactly row a b _).2.1 (Prod.ext rfl hdone)
    exact Option.some.inj (hp.symm.trans hq) ▸ hmoves
  refine ⟨⟨_, rfl, rfl, hswap ⟨1⟩ ⟨3⟩ root rfl rfl⟩, ⟨_, rfl, rfl, hswap ⟨2⟩ ⟨4⟩ root rfl rfl⟩,
    ⟨_, rfl, rfl, hswap ⟨4⟩ ⟨2⟩ ⟨2⟩ rfl rfl⟩, ?_, ?_, ?_⟩
  · obtain ⟨-, -, hmoves⟩ := (moves_exactly row root ⟨1⟩ _).1 rfl
    exact ⟨_, rfl, rfl, hmoves⟩
  · obtain ⟨-, hmoves⟩ := (moves_exactly row ⟨2⟩ root _).2.2.1 rfl
    exact ⟨_, rfl, hmoves⟩
  · exact ⟨_, rfl, (moves_exactly row root ⟨1⟩ _).2.2.2.1 (.inr (.inl rfl))⟩

end Document
end Scene.Svg
