import Scene.Proofs.Svg.Outline

/-! A new element below an old one, with everything else that is new below it. The tree under the
root is another one if the old element is part of it; taking the new element out gives the tree
back. -/
namespace Scene.Svg
open Relation

namespace Outline
variable {d d' : Document}

mutual

theorem map_text_pieces (settings : Settings.Writing) (depth : Nat) :
    (o : Outline) → (∀ n ∈ o.nodes, d'.element? n = d.element? n) →
    (o.pieces depth).map (Piece.text d' settings) = (o.pieces depth).map (Piece.text d settings)
  | .node n parts, h => by
    have hn := h n (by simp [nodes])
    have hparts := map_text_piecesAll settings (depth + 1) parts fun m hm =>
      h m (by simp [nodes, hm])
    simp [pieces, Piece.text, hn, hparts]

theorem map_text_piecesAll (settings : Settings.Writing) (depth : Nat) :
    (os : List Outline) → (∀ n ∈ nodesAll os, d'.element? n = d.element? n) →
    (piecesAll depth os).map (Piece.text d' settings) =
      (piecesAll depth os).map (Piece.text d settings)
  | [], _ => rfl
  | o :: os, h => by
    have hfirst := map_text_pieces settings depth o fun m hm => h m (by simp [nodesAll, hm])
    have hrest := map_text_piecesAll settings depth os fun m hm => h m (by simp [nodesAll, hm])
    simp [piecesAll, hfirst, hrest]

end

end Outline

namespace Document
variable {d d' d'' : Document} {n m parent : NodeId}

theorem exists_element (h : d.contains n = true) : ∃ e, d.element? n = some e :=
  Option.isSome_iff_exists.mp ((contains_eq_isSome d n).symm.trans h)

theorem nextId_ne (h : d.contains n = true) : n ≠ d.nextId := by
  rintro rfl
  exact Nat.lt_irrefl _ (index_lt_of_contains h)

theorem size_detach (d : Document) (n : NodeId) : (d.detach n).1.nodes.size = d.nodes.size := by
  rw [detach]
  split <;> simp [unlink, modify]

theorem Linked.contains_below (hl : d.Linked) (hn : d.contains n = true) (h : d.Below n m) :
    d.contains m = true := by
  induction h with
  | refl => exact hn
  | tail _ hstep _ => exact hl.contains_child hstep

structure SameAttached (d d' : Document) : Prop where
  below_iff (n : NodeId) : d'.Below root n ↔ d.Below root n
  element?_eq (n : NodeId) (hn : d.Below root n) : d'.element? n = d.element? n

namespace SameAttached

/-- It is enough that the elements stay: then the ways to them do. -/
theorem of_element? (h : ∀ n, d.Below root n → d'.element? n = d.element? n) :
    SameAttached d d' := by
  have hchildren (n : NodeId) (hn : d.Below root n) : d'.children n = d.children n := by
    rw [children, children, h n hn]
  refine ⟨fun n => ⟨fun hn => ?_, fun hn => ?_⟩, h⟩
  · induction hn with
    | refl => exact .refl
    | tail _ hstep ih => exact ih.tail (hchildren _ ih ▸ hstep)
  · induction hn with
    | refl => exact .refl
    | tail hway hstep ih => exact ih.tail ((hchildren _ hway).symm ▸ hstep)

theorem follows {o : Outline} (h : SameAttached d d') (ho : o.Follows d)
    (hbelow : d.Below root o.head) : o.Follows d' := by
  induction ho with
  | @node n parts hn hchildren hparts ih =>
    have hsame := h.element?_eq n hbelow
    refine .node ?_ ?_ fun o hmem => ih o hmem ?_
    · rw [contains_eq_isSome, hsame, ← contains_eq_isSome]
      exact hn
    · rw [children, hsame]
      exact hchildren
    · refine ReflTransGen.tail hbelow ?_
      change o.head ∈ d.children n
      rw [hchildren]
      exact List.mem_map_of_mem hmem

/-- A tree is written as before. -/
theorem text_eq (h : SameAttached d d') (hl : d.Linked) (ht : d.IsTree)
    (hroot : d.contains root = true) (hsize : d.nodes.size ≤ d'.nodes.size)
    (settings : Settings.Writing) : d'.text settings = d.text settings := by
  obtain ⟨o, hhead, ho⟩ := ht.exists_outline hl hroot
  have hcount : o.nodes.length ≤ d.nodes.size :=
    length_le_size (ho.nodup_nodes hl ht) fun x hx => ho.contains_of_mem hx
  have ho' : o.Follows d' := h.follows ho (hhead ▸ .refl)
  have hpieces := o.map_text_pieces settings 0 fun n hn =>
    h.element?_eq n (hhead ▸ ho.mem_nodes.mp hn)
  rw [ho.text_eq hhead hcount, ho'.text_eq hhead (hcount.trans hsize), hpieces]

end SameAttached

/-- One element more, the last child of `parent`, and perhaps others, which all hang from it. What
was there is as before, but for the children of `parent`. -/
structure Sprouts (d : Document) (parent : NodeId) (d' : Document) : Prop where
  element?_eq (m : NodeId) (hm : d.contains m = true) : d'.element? m =
    if m = parent then (d.element? m).map fun e => e.adopt [d.nextId] else d.element? m
  parent_eq : d'.parent? d.nextId = some parent
  hangs (m : NodeId) (hm : d'.contains m = true) (hnew : d.contains m = false) :
    ReflTransGen d'.Up m d.nextId

namespace Sprouts

theorem graft {e : Element} (he : e.parent = some parent) :
    d.Sprouts parent (d.graft parent [d.nextId] [e]) where
  element?_eq m hm := by
    rw [element?_graft, if_pos (index_lt_of_contains hm)]
    simp only [eq_comm]
  parent_eq := by
    rw [parent?_graft_nextId]
    exact he
  hangs m hm hnew := by
    have heq : m = d.nextId := by
      refine NodeId.ext ?_
      simp only [contains, size_graft, decide_eq_true_eq, decide_eq_false_iff_not,
        List.length_singleton] at hm hnew
      simp only [nextId]
      omega
    rw [heq]

theorem contains (h : d.Sprouts parent d') (hm : d.contains m = true) : d'.contains m = true := by
  obtain ⟨e, he⟩ := exists_element hm
  rw [contains_eq_isSome, h.element?_eq m hm, he]
  split <;> rfl

theorem contains_nextId (h : d.Sprouts parent d') : d'.contains d.nextId = true :=
  contains_of_parent? h.parent_eq

theorem parent?_eq (h : d.Sprouts parent d') (hm : d.contains m = true) :
    d'.parent? m = d.parent? m := by
  rw [parent?, parent?, h.element?_eq m hm]
  split
  · cases d.element? m <;> rfl
  · rfl

theorem up (h : d.Sprouts parent d') (hup : d.Up n m) : d'.Up n m :=
  (h.parent?_eq (contains_of_parent? hup)).trans hup

/-- What sprouts from the new element is a part of the same sprout. -/
theorem trans (h : d.Sprouts parent d') (h' : d'.Sprouts d.nextId d'') : d.Sprouts parent d'' where
  element?_eq m hm := by
    rw [h'.element?_eq m (h.contains hm), if_neg (nextId_ne hm), h.element?_eq m hm]
  parent_eq := (h'.parent?_eq h.contains_nextId).trans h.parent_eq
  hangs m hm hnew := by
    cases hold : d'.contains m with
    | true => exact ReflTransGen.mono (fun _ _ => h'.up) _ _ (h.hangs m hold hnew)
    | false => exact (h'.hangs m hm hold).tail h'.parent_eq

theorem size_le (h : d.Sprouts parent d') : d.nodes.size ≤ d'.nodes.size :=
  Nat.le_of_lt (index_lt_of_contains h.contains_nextId)

/-- The tree under the root stays what it is exactly where the parent is not in it. -/
theorem sameAttached_iff (h : d.Sprouts parent d') (hl : d.Linked) (hroot : d.contains root = true)
    (hparent : d.contains parent = true) : SameAttached d d' ↔ ¬ d.Below root parent := by
  constructor
  · intro hsame hbelow
    obtain ⟨e, he⟩ := exists_element hparent
    have hadopted := hsame.element?_eq parent hbelow
    rw [h.element?_eq parent hparent, if_pos rfl, he] at hadopted
    have hchildren := congrArg Element.children (Option.some.inj hadopted)
    simp [Element.adopt] at hchildren
  · refine fun hout => .of_element? fun n hn => ?_
    have hne : n ≠ parent := by
      rintro rfl
      exact hout hn
    rw [h.element?_eq n (hl.contains_below hroot hn), if_neg hne]

/-- Without the new element the tree under the root is what it was. -/
theorem sameAttached_detach (h : d.Sprouts parent d') (hl : d.Linked)
    (hroot : d.contains root = true) : SameAttached d (d'.detach d.nextId).1 := by
  refine .of_element? fun n hn => ?_
  have hin := hl.contains_below hroot hn
  rw [detach, h.parent_eq]
  dsimp only
  rw [unlink, element?_modify, if_neg (Ne.symm (nextId_ne hin)), element?_modify,
    h.element?_eq n hin]
  by_cases hnp : n = parent
  · subst hnp
    obtain ⟨e, he⟩ := exists_element hin
    have hkept : e.children.filter (· ≠ d.nextId) = e.children := by
      refine List.filter_eq_self.mpr fun c hc => ?_
      have hchild : c ∈ d.children n := by
        rw [children, he]
        exact hc
      simpa using nextId_ne (hl.contains_child hchild)
    rw [if_pos rfl, if_pos rfl, he]
    simp only [Option.map_some, Element.adopt, List.filter_append, hkept]
    simp
  · rw [if_neg (Ne.symm hnp), if_neg hnp]

end Sprouts
end Document
end Scene.Svg
