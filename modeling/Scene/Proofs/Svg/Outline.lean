import Scene.Proofs.Svg.Exchange
import Scene.Proofs.Svg.Walk

/-! Outlines: what hangs from an element, in the order in which it is written. In a tree, climbing,
searching and writing meet the same elements. -/
namespace Scene.Svg
open Relation

/-- An element with all that hangs from it, by their numbers. -/
inductive Outline where
  | node (n : NodeId) (parts : List Outline)

def Element.opening (e : Element) (settings : Settings.Writing) (depth : Nat) : String :=
  let content := match e.text, e.children with
    | none, [] => "/>"
    | some t, [] => ">" ++ escape t ++ "</" ++ e.tag ++ ">"
    | none, _ :: _ => ">"
    | some t, _ :: _ => ">" ++ escape t
  Markup.indentation settings.indent depth ++
    Markup.openTag e.tag (e.writtenAttributes settings.classPrefix) ++ content ++
    Markup.newline settings.indent

def Element.closing (e : Element) (settings : Settings.Writing) (depth : Nat) : String :=
  match e.children with
  | [] => ""
  | _ :: _ => Markup.indentation settings.indent depth ++ "</" ++ e.tag ++ ">" ++
      Markup.newline settings.indent

/-- The lines of an element stand around those of its children. -/
theorem Element.write_eq (e : Element) (settings : Settings.Writing) (depth : Nat)
    {ms : List Markup} (hnone : ms = [] ↔ e.children = []) :
    (Markup.element e.tag (e.writtenAttributes settings.classPrefix) e.text ms).write
        settings.indent depth =
      e.opening settings depth ++ Markup.writeAll settings.indent (depth + 1) ms ++
        e.closing settings depth := by
  have hempty : escape "" = "" := rfl
  cases ms with
  | nil =>
    have hchildren := hnone.mp rfl
    cases htext : e.text <;>
      simp [Markup.write, Markup.writeAll, opening, closing, htext, hchildren]
  | cons m ms =>
    obtain ⟨c, cs, hchildren⟩ := List.exists_cons_of_ne_nil fun h => by simpa using hnone.mpr h
    cases htext : e.text <;>
      simp [Markup.write, opening, closing, htext, hchildren, hempty, String.append_assoc]

inductive Piece where
  | opening (depth : Nat) (n : NodeId)
  | closing (depth : Nat) (n : NodeId)
  deriving DecidableEq, Repr

namespace Piece

def opened? : Piece → Option NodeId
  | .opening _ n => some n
  | .closing .. => none

def text (d : Document) (settings : Settings.Writing) : Piece → String
  | .opening depth n => ((d.element? n).map fun e => e.opening settings depth).getD ""
  | .closing depth n => ((d.element? n).map fun e => e.closing settings depth).getD ""

end Piece

namespace Outline

def head : Outline → NodeId
  | .node n _ => n

mutual

def nodes : Outline → List NodeId
  | .node n parts => n :: nodesAll parts

def nodesAll : List Outline → List NodeId
  | [] => []
  | o :: os => nodes o ++ nodesAll os

end

mutual

def pieces (depth : Nat) : Outline → List Piece
  | .node n parts => .opening depth n :: (piecesAll (depth + 1) parts ++ [.closing depth n])

def piecesAll (depth : Nat) : List Outline → List Piece
  | [] => []
  | o :: os => pieces depth o ++ piecesAll depth os

end

mutual

/-- Every element is opened once, in order. -/
theorem opened_pieces (depth : Nat) :
    (o : Outline) → (o.pieces depth).filterMap Piece.opened? = o.nodes
  | .node n parts => by
    have hparts := opened_piecesAll (depth + 1) parts
    simp [pieces, nodes, Piece.opened?, hparts]

theorem opened_piecesAll (depth : Nat) :
    (os : List Outline) → (piecesAll depth os).filterMap Piece.opened? = nodesAll os
  | [] => rfl
  | o :: os => by
    simp [piecesAll, nodesAll, opened_pieces depth o, opened_piecesAll depth os]

end

theorem nodesAll_eq_flatMap (os : List Outline) : nodesAll os = os.flatMap nodes := by
  induction os with
  | nil => rfl
  | cons o os ih => simp [nodesAll, ih]

theorem length_nodes_pos (o : Outline) : 0 < o.nodes.length := by
  cases o with
  | node n parts => simp [nodes]

theorem length_nodes_le {o : Outline} {os : List Outline} (ho : o ∈ os) :
    o.nodes.length ≤ (nodesAll os).length := by
  induction os with
  | nil => cases ho
  | cons a os ih =>
    rw [nodesAll, List.length_append]
    rcases List.mem_cons.mp ho with rfl | ho
    · omega
    · have := ih ho
      omega

/-- The document has every element of the outline, with just those children. -/
inductive Follows (d : Document) : Outline → Prop
  | node {n : NodeId} {parts : List Outline} (hn : d.contains n = true)
      (hchildren : d.children n = parts.map head) (hparts : ∀ o ∈ parts, Follows d o) :
      Follows d (.node n parts)

end Outline

open Outline

namespace Document
variable {d : Document} {n m a b : NodeId} {k : Nat} {o : Outline}

/-! Links in both directions. -/

theorem below_iff (hl : d.Linked) : d.Below a m ↔ ReflTransGen d.Up m a := by
  have hstep : (fun n c => c ∈ d.children n) = Function.swap d.Up := by
    funext n c
    exact propext (hl.agree c n)
  rw [Below, hstep, reflTransGen_swap]

theorem climb_iff {found : Bool} (h : d.climb k n = .ends found) :
    found = true ↔ ReflTransGen d.Up n root := by
  induction k generalizing n with
  | zero => cases h
  | succ k ih =>
    rw [climb] at h
    split at h
    · next hroot =>
      cases h
      simp [hroot, ReflTransGen.refl]
    · next hroot =>
      rw [ReflTransGen.cases_head_iff]
      cases hp : d.parent? n with
      | none =>
        rw [hp] at h
        cases h
        simp [hroot, Up, hp]
      | some p =>
        rw [hp] at h
        rw [ih h]
        simp [hroot, Up, hp]

/-- What hangs from two children of one element is apart. -/
theorem IsTree.eq_of_below (ht : d.IsTree) (hl : d.Linked) (ha : a ∈ d.children n)
    (hb : b ∈ d.children n) (ham : d.Below a m) (hbm : d.Below b m) : a = b := by
  rw [hl.agree] at ha hb
  have hunique : Relator.RightUnique d.Up := fun x y z hy hz => Option.some.inj (hy.symm.trans hz)
  -- one of them is on the way up from the other, which leads to their parent first
  have hway {x y : NodeId} (hx : d.Up x n) (hy : d.Up y n) (hxy : ReflTransGen d.Up x y) :
      x = y := by
    rcases hxy.cases_head with heq | ⟨p, hp, hpy⟩
    · exact heq
    · obtain rfl := hunique hp hx
      exact absurd (TransGen.tail' hpy hy) (ht p)
  rcases ReflTransGen.total_of_right_unique hunique ((below_iff hl).mp ham)
    ((below_iff hl).mp hbm) with hab | hba
  · exact hway ha hb hab
  · exact (hway hb ha hba).symm

end Document

/-! The elements of an outline. -/

namespace Outline.Follows
variable {d : Document} {m : NodeId} {o : Outline} {os : List Outline} {k : Nat}

theorem mem_nodes (h : o.Follows d) : m ∈ o.nodes ↔ d.Below o.head m := by
  induction h with
  | @node n parts _ hchildren _ ih =>
    have hparts : (∃ o ∈ parts, m ∈ o.nodes) ↔ ∃ c ∈ d.children n, d.Below c m := by
      rw [hchildren]
      simp only [List.mem_map, exists_exists_and_eq_and]
      exact exists_congr fun o => and_congr_right fun ho => ih o ho
    rw [nodes, nodesAll_eq_flatMap, List.mem_cons, List.mem_flatMap, hparts, head, Document.Below,
      ReflTransGen.cases_head_iff, eq_comm]

/-- Nothing else hangs from an element. -/
theorem eq_of_head {o' : Outline} (h : o.Follows d) (h' : o'.Follows d) (hhead : o'.head = o.head) :
    o' = o := by
  induction h generalizing o' with
  | @node n parts _ hchildren _ ih =>
    obtain ⟨n', parts'⟩ := o'
    obtain rfl : n' = n := hhead
    obtain ⟨-, hchildren', hparts'⟩ := h'
    have hheads : parts'.map head = parts.map head := hchildren'.symm.trans hchildren
    have hlength : parts'.length = parts.length := by simpa using congrArg List.length hheads
    have hparts : parts' = parts := by
      refine List.ext_getElem hlength fun i hi' hi => ?_
      refine ih _ (List.getElem_mem hi) (hparts' _ (List.getElem_mem hi')) ?_
      simpa [hi, hi'] using congrArg (·[i]?) hheads
    rw [hparts]

theorem contains_of_mem (h : o.Follows d) (hm : m ∈ o.nodes) : d.contains m = true := by
  induction h with
  | node hn _ _ ih =>
    rw [nodes, nodesAll_eq_flatMap, List.mem_cons, List.mem_flatMap] at hm
    rcases hm with rfl | ⟨o, ho, hm⟩
    · exact hn
    · exact ih o ho hm

/-- In a tree no element comes twice: neither below itself nor below two of its children. -/
theorem nodup_nodes (h : o.Follows d) (hl : d.Linked) (ht : d.IsTree) : o.nodes.Nodup := by
  induction h with
  | @node n parts _ hchildren hparts ih =>
    have hchild {o : Outline} (ho : o ∈ parts) : o.head ∈ d.children n := by
      rw [hchildren]
      exact List.mem_map_of_mem ho
    rw [nodes, nodesAll_eq_flatMap, List.nodup_cons, List.nodup_flatMap]
    refine ⟨fun hn => ?_, ih, ?_⟩
    · obtain ⟨o, ho, hn⟩ := List.mem_flatMap.mp hn
      have hback := (Document.below_iff hl).mp ((hparts o ho).mem_nodes.mp hn)
      exact ht n (TransGen.tail' hback ((hl.agree _ _).mp (hchild ho)))
    · have hheads : parts.Pairwise fun x y => x.head ≠ y.head :=
        List.pairwise_map.mp (hchildren ▸ hl.nodup n)
      refine hheads.imp_of_mem fun {x y} hx hy hne m hmx hmy => hne ?_
      exact ht.eq_of_below hl (hchild hx) (hchild hy) ((hparts x hx).mem_nodes.mp hmx)
        ((hparts y hy).mem_nodes.mp hmy)

/-- A search through the elements that outlines start at goes through the outlines in order. -/
theorem search_eq (id : String) (hos : ∀ o ∈ os, o.Follows d) (hk : (nodesAll os).length ≤ k) :
    d.search id k (os.map head) =
      .ends ((nodesAll os).find? fun n => d.attribute? n "id" = some id) := by
  induction k generalizing os with
  | zero =>
    cases os with
    | nil => rfl
    | cons o os =>
      have := o.length_nodes_pos
      simp only [nodesAll, List.length_append] at hk
      omega
  | succ k ih =>
    cases os with
    | nil => rfl
    | cons o os =>
      obtain ⟨n, parts⟩ := o
      obtain ⟨-, hchildren, hparts⟩ := hos _ List.mem_cons_self
      rw [List.map_cons, Document.search, head, nodesAll, nodes, List.cons_append, List.find?_cons]
      by_cases hid : d.attribute? n "id" = some id
      · simp [hid]
      · -- the children of the element come before the rest of the stack
        have hstack : d.children n ++ os.map head = (parts ++ os).map head := by
          rw [hchildren, List.map_append]
        have hnodes : nodesAll parts ++ nodesAll os = nodesAll (parts ++ os) := by
          simp [nodesAll_eq_flatMap]
        have hall : ∀ o ∈ parts ++ os, o.Follows d := by
          intro o ho
          rcases List.mem_append.mp ho with ho | ho
          · exact hparts o ho
          · exact hos o (List.mem_cons_of_mem _ ho)
        simp only [nodesAll, nodes, List.length_append, List.length_cons] at hk
        have hlength : (nodesAll (parts ++ os)).length ≤ k := by
          rw [← hnodes, List.length_append]
          omega
        rw [if_neg hid, hstack, hnodes, ih hall hlength]
        simp [hid]

/-! Outlines as they are written. -/

theorem exists_writeAll {settings : Settings.Writing}
    (hos : ∀ o ∈ os, ∃ m, d.subtree settings.classPrefix k o.head = .ends (some m) ∧
      ∀ depth, m.write settings.indent depth =
        String.join ((o.pieces depth).map (Piece.text d settings))) :
    ∃ ms, (os.map head).mapM (d.subtree settings.classPrefix k) = .ends (ms.map some) ∧
      ms.length = os.length ∧ ∀ depth, Markup.writeAll settings.indent depth ms =
        String.join ((piecesAll depth os).map (Piece.text d settings)) := by
  induction os with
  | nil => exact ⟨[], rfl, rfl, fun depth => by simp [Markup.writeAll, piecesAll]⟩
  | cons o os ih =>
    obtain ⟨m, hm, hwrite⟩ := hos o List.mem_cons_self
    obtain ⟨ms, hms, hlength, hwriteAll⟩ := ih fun o' ho' => hos o' (List.mem_cons_of_mem o ho')
    refine ⟨m :: ms, ?_, by simp [hlength], fun depth => ?_⟩
    · rw [List.map_cons, List.mapM_cons, hm, hms]
      rfl
    · simp [Markup.writeAll, piecesAll, hwrite, hwriteAll, String.join_append]

theorem exists_write (h : o.Follows d) (settings : Settings.Writing) (hk : o.nodes.length ≤ k) :
    ∃ m, d.subtree settings.classPrefix k o.head = .ends (some m) ∧
      ∀ depth, m.write settings.indent depth =
        String.join ((o.pieces depth).map (Piece.text d settings)) := by
  induction h generalizing k with
  | @node n parts hn hchildren hparts ih =>
    obtain ⟨e, he⟩ := Option.isSome_iff_exists.mp ((d.contains_eq_isSome n).symm.trans hn)
    have hheads : e.children = parts.map head := by
      rw [← hchildren, Document.children, he]
    obtain _ | k := k
    · simp [nodes] at hk
    have hfits (o : Outline) (ho : o ∈ parts) : o.nodes.length ≤ k := by
      have := length_nodes_le ho
      simp only [nodes, List.length_cons] at hk
      omega
    obtain ⟨ms, hms, hlength, hwriteAll⟩ :=
      exists_writeAll fun o ho => ih o ho (hfits o ho)
    refine ⟨.element e.tag (e.writtenAttributes settings.classPrefix) e.text ms, ?_, fun depth => ?_⟩
    · rw [head, Document.subtree, he]
      dsimp only
      rw [hheads, hms]
      simp [bind, Walk.bind, pure]
    · have hnone : ms = [] ↔ e.children = [] := by
        rw [← List.length_eq_zero_iff, ← List.length_eq_zero_iff, hlength, hheads, List.length_map]
      simp [e.write_eq settings depth hnone, hwriteAll, pieces, Piece.text, he, String.join_append,
        String.append_assoc]

end Outline.Follows

namespace Document
variable {d : Document} {n : NodeId} {k : Nat}

theorem exists_outlines {l : List NodeId} (h : ∀ c ∈ l, ∃ o : Outline, o.head = c ∧ o.Follows d) :
    ∃ os : List Outline, l = os.map head ∧ ∀ o ∈ os, o.Follows d := by
  induction l with
  | nil => exact ⟨[], rfl, by simp⟩
  | cons c l ih =>
    obtain ⟨o, rfl, ho⟩ := h c List.mem_cons_self
    obtain ⟨os, rfl, hos⟩ := ih fun c' hc' => h c' (List.mem_cons_of_mem _ hc')
    exact ⟨o :: os, rfl, by simpa using ⟨ho, hos⟩⟩

/-- Either the way down from an element ends everywhere, or it is long. -/
theorem exists_outline_or_hasWay (hl : d.Linked) (hn : d.contains n = true) (k : Nat) :
    (∃ o : Outline, o.head = n ∧ o.Follows d) ∨ d.HasWay (fun p c => d.Up c p) n k := by
  induction k generalizing n with
  | zero => exact .inr .zero
  | succ k ih =>
    by_cases hway : ∃ c ∈ d.children n, d.HasWay (fun p c => d.Up c p) c k
    · obtain ⟨c, hc, hway⟩ := hway
      exact .inr (.succ hn ((hl.agree c n).mp hc) hway)
    · left
      obtain ⟨os, hchildren, hos⟩ := exists_outlines fun c hc =>
        (ih (hl.contains_child hc)).resolve_right fun h => hway ⟨c, hc, h⟩
      exact ⟨.node n os, rfl, .node hn hchildren hos⟩

theorem IsTree.exists_outline (ht : d.IsTree) (hl : d.Linked) (hn : d.contains n = true) :
    ∃ o : Outline, o.head = n ∧ o.Follows d := by
  refine (exists_outline_or_hasWay hl hn (d.nodes.size + 1)).resolve_right fun hway => ?_
  have := hway.le_size fun x hx => ht x (transGen_swap.mp hx)
  omega

def heading (settings : Settings.Writing) : String :=
  if settings.declaration then declaration ++ Markup.newline settings.indent else ""

end Document

namespace Outline.Follows
variable {d : Document} {o : Outline}

/-! A whole document: its outline starts at the root and has no more elements than there are. -/

theorem findById_eq (ho : o.Follows d) (hhead : o.head = Document.root)
    (hcount : o.nodes.length ≤ d.nodes.size) (id : String) :
    d.findById id = .ends (o.nodes.find? fun n => d.attribute? n "id" = some id) := by
  have hall : ∀ o' ∈ [o], o'.Follows d := by simpa using ho
  have hlength : (nodesAll [o]).length ≤ d.nodes.size + 1 := by
    simp only [nodesAll, List.append_nil]
    omega
  rw [Document.findById]
  simpa [nodesAll, hhead] using search_eq id hall hlength

theorem text_eq (ho : o.Follows d) (hhead : o.head = Document.root)
    (hcount : o.nodes.length ≤ d.nodes.size) (settings : Settings.Writing) :
    d.text settings = .ends (Document.heading settings ++
      String.join ((o.pieces 0).map (Piece.text d settings))) := by
  obtain ⟨m, hm, hwrite⟩ := ho.exists_write settings (Nat.le_succ_of_le hcount)
  rw [hhead] at hm
  rw [Document.text, Document.fragmentText, Document.markup, hm, ← hwrite]
  rfl

end Outline.Follows

namespace Document

/-- Whatever edits led to a document, if it is a tree: there is an outline of what hangs from the
root, in which no element comes twice. The elements in it are those that can be reached from the
root, and those that are attached; each of them is written once, in this order; and the first of them
with an id is the one that is found by it. -/
theorem attached_written_once (edits : List Edit) (htree : (edited edits).IsTree) :
    ∃ o : Outline, o.head = root ∧ o.Follows (edited edits) ∧ o.nodes.Nodup ∧
      (∀ n, n ∈ o.nodes ↔ (edited edits).Below root n) ∧
      (∀ n, ∃ b, (edited edits).isAttached n = .ends b ∧
        (b = true ↔ (edited edits).Below root n)) ∧
      (o.pieces 0).filterMap Piece.opened? = o.nodes ∧
      (∀ settings, (edited edits).text settings =
        .ends (heading settings ++
          String.join ((o.pieces 0).map (Piece.text (edited edits) settings)))) ∧
      ∀ id, (edited edits).findById id =
          .ends (o.nodes.find? fun n => (edited edits).attribute? n "id" = some id) ∧
        ((edited edits).findById id = .ends none ↔
          ∀ n, (edited edits).Below root n → (edited edits).attribute? n "id" ≠ some id) := by
  have hl := linked_edited edits
  obtain ⟨o, hhead, ho⟩ := htree.exists_outline hl (contains_root_edited edits)
  have hmem (n : NodeId) : n ∈ o.nodes ↔ (edited edits).Below root n := hhead ▸ ho.mem_nodes
  have hnodup := ho.nodup_nodes hl htree
  have hcount : o.nodes.length ≤ (edited edits).nodes.size :=
    length_le_size hnodup fun x hx => ho.contains_of_mem hx
  have hfind := ho.findById_eq hhead hcount
  refine ⟨o, hhead, ho, hnodup, hmem, fun n => ?_, opened_pieces 0 o, ho.text_eq hhead hcount,
    fun id => ⟨hfind id, ?_⟩⟩
  · obtain ⟨b, hb⟩ := isAttached_ends htree n
    exact ⟨b, hb, (climb_iff hb).trans (below_iff hl).symm⟩
  · rw [hfind]
    simp [List.find?_eq_none, hmem]

def scattered : List Edit :=
  [.append root "g", .append ⟨1⟩ "rect", .append root "line", .createElement "g",
    .append ⟨4⟩ "text", .setAttribute ⟨3⟩ "id" "mark", .setAttribute ⟨2⟩ "id" "mark",
    .setAttribute ⟨5⟩ "id" "spare"]

def scatteredOutline : Outline :=
  .node root [.node ⟨1⟩ [.node ⟨2⟩ []], .node ⟨3⟩ []]

theorem scatteredOutline_follows : scatteredOutline.Follows (edited scattered) := by
  have hleaf {n : NodeId} (hn : (edited scattered).contains n = true)
      (hchildren : (edited scattered).children n = []) : (node n []).Follows (edited scattered) :=
    .node hn hchildren (by simp)
  refine .node rfl rfl ?_
  simp only [List.mem_cons, List.not_mem_nil, or_false, forall_eq_or_imp, forall_eq]
  exact ⟨.node rfl rfl (by simpa using hleaf rfl rfl), hleaf rfl rfl⟩

theorem scattered_written_once : (edited scattered).IsTree ∧
    (∀ n, n ∈ [root, ⟨1⟩, ⟨2⟩, ⟨3⟩] ↔ (edited scattered).Below root n) ∧
    (edited scattered).isAttached ⟨5⟩ = .ends false ∧
    (edited scattered).findById "mark" = .ends (some ⟨2⟩) ∧
    (edited scattered).findById "spare" = .ends none ∧
    (edited scattered).text .compact = .ends ("<svg xmlns=\"http://www.w3.org/2000/svg\"><g>" ++
      "<rect id=\"mark\"/></g><line id=\"mark\"/></svg>") := by
  have horderly : Orderly scattered := by
    intro before e after heq
    have hmem : e ∈ scattered := by simp [heq]
    simp only [scattered, List.mem_cons, List.not_mem_nil, or_false] at hmem
    rcases hmem with rfl | rfl | rfl | rfl | rfl | rfl | rfl | rfl <;> exact id
  have htree := isTree_edited horderly
  obtain ⟨o, hhead, ho, -, hmem, hattached, -, htext, hfind⟩ := attached_written_once scattered htree
  obtain rfl := scatteredOutline_follows.eq_of_head ho hhead
  obtain ⟨b, hb, hreached⟩ := hattached ⟨5⟩
  have hout : b = false := by
    rw [← Bool.not_eq_true, hreached, ← hmem]
    decide
  exact ⟨htree, hmem, hout ▸ hb, (hfind "mark").1, (hfind "spare").1, htext .compact⟩

end Document
end Scene.Svg
