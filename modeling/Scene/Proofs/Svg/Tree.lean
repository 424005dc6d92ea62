import Mathlib.Logic.Relation
import Scene.Proofs.Svg.Edit

/-! When the links of a document run in a circle. Only an edit that puts an element below itself
closes one. -/
namespace Scene.Svg
open Relation

namespace Document
variable {d d' : Document} {n m a p c old new : NodeId}

def Up (d : Document) (n p : NodeId) : Prop := d.parent? n = some p

def Above (d : Document) (a n : NodeId) : Prop := TransGen d.Up n a

def IsTree (d : Document) : Prop := ∀ n, ¬ d.Above n n

theorem Above.exists_parent (h : d.Above a n) : ∃ p, d.parent? n = some p := by
  obtain ⟨p, hp, -⟩ := TransGen.head'_iff.mp h
  exact ⟨p, hp⟩

theorem Linked.contains_above (h : d.Linked) (ha : d.Above a n) : d.contains a = true := by
  obtain ⟨m, -, hm⟩ := TransGen.tail'_iff.mp ha
  exact h.contains_parent hm

theorem isTree_create : create.IsTree := by
  intro n h
  obtain ⟨p, hp⟩ := h.exists_parent
  obtain ⟨_ | i⟩ := n <;> cases hp

theorem IsTree.mono (h : d.IsTree) (hup : ∀ n p, d'.Up n p → d.Up n p) : d'.IsTree :=
  fun n hn => h n (TransGen.mono hup _ _ hn)

/-- Where one link is new, a way up is an old one, or it gets to the new link and goes on from
there. -/
theorem Above.of_new_link (hup : ∀ x y, d'.Up x y → (x = c ∧ y = p) ∨ d.Up x y)
    (hout : ¬ ReflTransGen d.Up p c) (h : d'.Above a n) :
    d.Above a n ∨ (ReflTransGen d.Up n c ∧ ReflTransGen d.Up p a) := by
  induction h with
  | single hstep =>
    rcases hup _ _ hstep with ⟨rfl, rfl⟩ | hold
    · exact .inr ⟨.refl, .refl⟩
    · exact .inl (.single hold)
  | tail _ hstep ih =>
    rcases hup _ _ hstep with ⟨rfl, rfl⟩ | hold
    · rcases ih with hbefore | ⟨-, hback⟩
      · exact .inr ⟨hbefore.to_reflTransGen, .refl⟩
      · exact absurd hback hout
    · rcases ih with hbefore | ⟨hto, hfrom⟩
      · exact .inl (hbefore.tail hold)
      · exact .inr ⟨hto, hfrom.tail hold⟩

/-- A new link keeps a tree where it does not lead up to where it starts. -/
theorem IsTree.new_link (h : d.IsTree) (hup : ∀ x y, d'.Up x y → (x = c ∧ y = p) ∨ d.Up x y)
    (hout : ¬ ReflTransGen d.Up p c) : d'.IsTree := by
  intro n hn
  rcases hn.of_new_link hup hout with hold | ⟨hto, hfrom⟩
  · exact h n hold
  · exact hout (hfrom.trans hto)

/-- A way up to `a` stays where no link of an element below `a` is lost, but for one not on it. -/
theorem IsTree.keeps_way (h : d.IsTree) (hp : d.Up old p)
    (hup : ∀ x y, x ≠ a → x ≠ old → d.Up x y → d'.Up x y) (hway : ReflTransGen d.Up p a) :
    ReflTransGen d'.Up p a := by
  -- `x` runs up the way from `p`; it meets neither `a` before the end nor `old`, which is below `p`
  have hfrom (x : NodeId) (hx : ReflTransGen d.Up x a) :
      ReflTransGen d.Up p x → ReflTransGen d'.Up x a := by
    induction hx using ReflTransGen.head_induction_on with
    | refl => exact fun _ => .refl
    | head hstep hrest ih =>
      intro hpx
      refine .head (hup _ _ ?_ ?_ hstep) (ih (hpx.tail hstep))
      · rintro rfl
        exact h _ (TransGen.head' hstep hrest)
      · rintro rfl
        exact h _ (TransGen.head' hp hpx)
  exact hfrom p hway .refl

end Document

def Edit.Entangles (d : Document) : Edit → Prop
  | .appendChild parent child => d.Above child parent
  | .replace old new => d.Above new old
  | _ => False

namespace Document
variable {d : Document} {n a p c old new : NodeId}

theorem IsTree.createElement (h : d.IsTree) (tag : String) : (d.createElement tag).2.IsTree :=
  h.mono fun n p hp => by rwa [Up, parent?_createElement] at hp

theorem IsTree.detach (h : d.IsTree) (n : NodeId) : (d.detach n).1.IsTree := by
  refine h.mono fun m p hp => ?_
  rw [Up, parent?_detach] at hp
  split at hp
  · cases hp
  · exact hp

theorem IsTree.appendChild (h : d.IsTree) (hout : ¬ d.Above c p) : (d.appendChild p c).1.IsTree := by
  by_cases hok : d.contains p = true ∧ d.contains c = true ∧ p ≠ c
  · obtain ⟨hp, hc, hne⟩ := hok
    have hup (x y : NodeId) (hxy : (d.appendChild p c).1.Up x y) :
        (x = c ∧ y = p) ∨ d.Up x y := by
      rw [Up, parent?_appendChild hp hc hne] at hxy
      split at hxy
      · next hx => exact .inl ⟨hx, (Option.some.inj hxy).symm⟩
      · exact .inr hxy
    refine h.new_link hup fun hway => ?_
    rcases reflTransGen_iff_eq_or_transGen.mp hway with heq | hway
    · exact hne heq.symm
    · exact hout hway
  · rw [appendChild_refused hok]
    exact h

theorem IsTree.not_appendChild (h : d.IsTree) (hl : d.Linked) (hin : d.Above c p) :
    ¬ (d.appendChild p c).1.IsTree := by
  have hne : p ≠ c := by
    rintro rfl
    exact h p hin
  obtain ⟨q, hq⟩ := hin.exists_parent
  have hp := contains_of_parent? hq
  have hc := hl.contains_above hin
  have hup := parent?_appendChild hp hc hne
  intro htree
  have hway : ReflTransGen (d.appendChild p c).1.Up q c := by
    refine h.keeps_way hq (fun x y hx _ hxy => ?_) ?_
    · rw [Up, hup, if_neg hx]
      exact hxy
    · obtain ⟨q', hq', hway⟩ := TransGen.head'_iff.mp hin
      rw [Up, hq, Option.some.injEq] at hq'
      rwa [hq']
  have hpq : (d.appendChild p c).1.Up p q := by
    rw [Up, hup, if_neg hne]
    exact hq
  have hcp : (d.appendChild p c).1.Up c p := by
    rw [Up, hup, if_pos rfl]
  exact htree c (TransGen.head' hcp (ReflTransGen.head hpq hway))

theorem IsTree.replace (h : d.IsTree) (hout : ¬ d.Above new old) :
    (d.replace old new).1.IsTree := by
  by_cases hok : (d.parent? old).isSome = true ∧ d.contains new = true ∧ old ≠ new
  · obtain ⟨hsome, hnew, hne⟩ := hok
    obtain ⟨p, hp⟩ := Option.isSome_iff_exists.mp hsome
    have hup (x y : NodeId) (hxy : (d.replace old new).1.Up x y) :
        (x = new ∧ y = p) ∨ d.Up x y := by
      rw [Up, parent?_replace hp hnew hne] at hxy
      split at hxy
      · next hx => exact .inl ⟨hx, (Option.some.inj hxy).symm⟩
      · split at hxy
        · cases hxy
        · exact .inr hxy
    exact h.new_link hup fun hway => hout (TransGen.head' hp hway)
  · rw [replace_refused hok]
    exact h

theorem IsTree.not_replace (h : d.IsTree) (hl : d.Linked) (hin : d.Above new old) :
    ¬ (d.replace old new).1.IsTree := by
  have hne : old ≠ new := by
    rintro rfl
    exact h old hin
  obtain ⟨p, hp, hway⟩ := TransGen.head'_iff.mp hin
  have hup := parent?_replace hp (hl.contains_above hin) hne
  intro htree
  have hway' : ReflTransGen (d.replace old new).1.Up p new := by
    refine h.keeps_way hp (fun x y hx hx' hxy => ?_) hway
    rw [Up, hup, if_neg hx, if_neg hx']
    exact hxy
  have hnp : (d.replace old new).1.Up new p := by
    rw [Up, hup, if_pos rfl]
  exact htree new (TransGen.head' hnp hway')

theorem not_above_createElement (hl : d.Linked) (tag : String) (n : NodeId) :
    ¬ (d.createElement tag).2.Above ⟨d.nodes.size⟩ n := by
  intro h
  obtain ⟨m, -, hm⟩ := TransGen.tail'_iff.mp h
  rw [Up, parent?_createElement] at hm
  have hin := hl.contains_parent hm
  simp [contains] at hin

/-- Of the edits of a tree, those that put an element below itself are the ones that leave none. -/
theorem IsTree.apply_iff (h : d.IsTree) (hl : d.Linked) (e : Edit) :
    (e.apply d).IsTree ↔ ¬ e.Entangles d := by
  cases e with
  | createElement tag => exact iff_of_true (h.createElement tag) id
  | append parent tag =>
    exact iff_of_true ((h.createElement tag).appendChild (not_above_createElement hl tag parent)) id
  | appendChild parent child =>
    exact ⟨fun htree hin => h.not_appendChild hl hin htree, h.appendChild⟩
  | detach n => exact iff_of_true (h.detach n) id
  | replace old new => exact ⟨fun htree hin => h.not_replace hl hin htree, h.replace⟩
  | setAttribute n name value =>
    refine iff_of_true (h.mono fun m p hp => ?_) id
    rwa [Up, Edit.apply, parent?_setAttribute] at hp
  | addClass n name =>
    refine iff_of_true (h.mono fun m p hp => ?_) id
    rwa [Up, Edit.apply, parent?_addClass] at hp
  | setText n text =>
    refine iff_of_true (h.mono fun m p hp => ?_) id
    rwa [Up, Edit.apply, parent?_setText] at hp

/-- No edit puts an element below itself. -/
def Orderly (edits : List Edit) : Prop :=
  ∀ before e after, edits = before ++ e :: after → ¬ e.Entangles (edited before)

theorem orderly_nil : Orderly [] := by
  intro before e after h
  simp at h

theorem orderly_concat {edits : List Edit} {e : Edit} :
    Orderly (edits ++ [e]) ↔ Orderly edits ∧ ¬ e.Entangles (edited edits) := by
  constructor
  · intro h
    refine ⟨fun before e' after heq => h before e' (after ++ [e]) ?_, h edits e [] rfl⟩
    rw [heq, List.append_assoc, List.cons_append]
  · rintro ⟨hedits, he⟩ before e' after heq
    obtain rfl | ⟨after, last, rfl⟩ := List.eq_nil_or_concat after
    · obtain ⟨rfl, hlast⟩ := List.append_inj' heq rfl
      obtain rfl := List.singleton_inj.mp hlast
      exact he
    · rw [List.concat_eq_append, ← List.cons_append, ← List.append_assoc] at heq
      exact hedits before e' after (List.append_inj' heq rfl).1

theorem isTree_edited {edits : List Edit} (h : Orderly edits) : (edited edits).IsTree := by
  induction edits using List.reverseRecOn with
  | nil => exact isTree_create
  | append_singleton edits e ih =>
    obtain ⟨hedits, he⟩ := orderly_concat.mp h
    rw [edited_concat, (ih hedits).apply_iff (linked_edited edits)]
    exact he

end Document
end Scene.Svg
