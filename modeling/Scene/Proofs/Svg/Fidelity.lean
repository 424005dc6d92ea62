import Mathlib.Data.List.Forall2
import Scene.Proofs.Svg.History
import Scene.Proofs.Svg.Reading
import Scene.Proofs.Svg.Walk

/-! What is written of a document says what is in it: read back, it is the tree below the root. -/
namespace Scene.Svg
open Relation

/-- What can be written such that it is told from all else: names are names, there is no text beside
children, and the added classes are the only ones. -/
structure Element.Writable (e : Element) : Prop where
  tag : isName e.tag = true
  attributes : ∀ a ∈ e.attributes, isName a.1 = true
  content : e.text = none ∨ e.children = []
  classes : e.classes = [] ∨ ∀ a ∈ e.attributes, a.1 ≠ "class"

namespace Document
variable {d : Document} {n : NodeId}

/-- No element, in the tree or not, has an attribute twice. -/
def OnceNamed (d : Document) : Prop := ∀ n, ∀ e ∈ d.element? n, e.OnceNamed

theorem onceNamed_edited (edits : List Edit) : (edited edits).OnceNamed :=
  fun _ _ he => (traced_edited edits he).once

/-- A markup shows an element with all below it: the attributes in their order and the classes
behind them, the children in their order, the text as it is. -/
inductive Shows (d : Document) (classPrefix : Option String) : NodeId → Markup → Prop
  | element {n : NodeId} {e : Element} {children : List Markup} (he : d.element? n = some e)
    (hchildren : List.Forall₂ (d.Shows classPrefix) e.children children) :
    d.Shows classPrefix n (.element e.tag
      (e.attributes ++
        if e.classes = [] then []
        else [("class", " ".intercalate (e.classes.map (classPrefix.getD "" ++ ·)))])
      e.text children)

theorem writtenAttributes_eq (e : Element) (classPrefix : Option String) :
    e.writtenAttributes classPrefix = e.attributes ++
      if e.classes = [] then []
      else [("class", " ".intercalate (e.classes.map (classPrefix.getD "" ++ ·)))] := by
  rw [Element.writtenAttributes]
  cases hclasses : e.classes with
  | nil => simp
  | cons c cs => rfl

theorem readable_of_writable {e : Element} (hw : e.Writable) (honce : e.OnceNamed)
    (classPrefix : Option String) {children : List Markup}
    (hcount : e.children = [] → children = []) (hchildren : ∀ m ∈ children, m.Readable) :
    (Markup.element e.tag (e.writtenAttributes classPrefix) e.text children).Readable := by
  refine .element hw.tag ?_ ?_ (hw.content.imp_right hcount) hchildren
  · rw [writtenAttributes_eq]
    intro a ha
    rcases List.mem_append.mp ha with ha | ha
    · exact hw.attributes a ha
    · split at ha
      · cases ha
      · obtain rfl := List.mem_singleton.mp ha
        exact (by decide : isName "class" = true)
  · rw [writtenAttributes_eq]
    split
    · rwa [List.append_nil]
    · next hclasses =>
      have hother := hw.classes.resolve_left hclasses
      rw [List.map_append, List.nodup_append]
      refine ⟨honce, List.nodup_singleton _, fun name hname class' hclass heq => ?_⟩
      obtain ⟨a, ha, rfl⟩ := List.mem_map.mp hname
      rw [List.map_singleton, List.mem_singleton] at hclass
      exact hother a ha (heq.trans hclass)

/-- What is found for every child is found for all of them in order. -/
theorem forall₂_filterMap {f : NodeId → Walk (Option Markup)} {P : NodeId → Markup → Prop}
    {cs : List NodeId} {rs : List (Option Markup)} (hrs : List.Forall₂ (f · = .ends ·) cs rs)
    (h : ∀ c ∈ cs, ∀ r, f c = .ends r → ∃ m, r = some m ∧ P c m) :
    List.Forall₂ P cs (rs.filterMap id) := by
  induction hrs with
  | nil => exact .nil
  | @cons c r cs rs hr _ ih =>
    obtain ⟨m, rfl, hm⟩ := h c List.mem_cons_self r hr
    exact .cons hm (ih fun c' hc' => h c' (List.mem_cons_of_mem c hc'))

/-- A walk down an attached element finds markup that shows it and can be read. -/
theorem subtree_shows (hl : d.Linked) (honce : d.OnceNamed)
    (hw : ∀ n, ReflTransGen d.Up n root → ∀ e ∈ d.element? n, e.Writable)
    {classPrefix : Option String} {k : Nat} (hn : ReflTransGen d.Up n root)
    (hin : d.contains n = true) {r : Option Markup} (hr : d.subtree classPrefix k n = .ends r) :
    ∃ m, r = some m ∧ m.Readable ∧ d.Shows classPrefix n m := by
  induction k generalizing n r with
  | zero => cases hr
  | succ k ih =>
    rw [contains_eq_isSome, Option.isSome_iff_exists] at hin
    obtain ⟨e, he⟩ := hin
    have hchildren : d.children n = e.children := by rw [children, he]
    obtain ⟨rs, hrs, rfl⟩ := subtree_succ_eq_ends he hr
    have hall : List.Forall₂ (fun c m => m.Readable ∧ d.Shows classPrefix c m) e.children
        (rs.filterMap id) := by
      refine forall₂_filterMap hrs fun c hc r hr => ?_
      rw [← hchildren] at hc
      exact ih (.head ((hl.agree c n).mp hc) hn) (hl.contains_child hc) hr
    refine ⟨_, rfl, readable_of_writable (hw n hn e he) (honce n e he) classPrefix ?_ ?_, ?_⟩
    · intro hnone
      rw [hnone] at hall
      exact List.forall₂_nil_left_iff.mp hall
    · exact ((List.forall₂_and_left _ _).mp hall.flip).1
    · rw [writtenAttributes_eq]
      exact .element he (hall.imp fun _ _ hm => hm.2)

/-- Whatever edits led to a document: if it is a tree in which what is written can be told apart, a
reader of the written text gets back exactly what hangs from the root, with or without declaration,
indentation and class prefix. -/
theorem written_document_reads_back (edits : List Edit) (htree : (edited edits).IsTree)
    (hwritable : ∀ n, ReflTransGen (edited edits).Up n root →
      ∀ e ∈ (edited edits).element? n, e.Writable)
    (settings : Settings.Writing) :
    ∃ text m, (edited edits).text settings = .ends text ∧ read? text = some m ∧
      (edited edits).Shows settings.classPrefix root m := by
  have hl := linked_edited edits
  obtain ⟨text, htext⟩ := text_ends hl htree settings
  cases hmarkup : (edited edits).markup settings.classPrefix root with
  | endless =>
    rw [Document.text, fragmentText, hmarkup] at htext
    cases htext
  | ends r =>
    obtain ⟨m, rfl, hreadable, hshows⟩ := subtree_shows hl (onceNamed_edited edits) hwritable .refl
      (contains_root_edited edits) hmarkup
    rw [Document.text, fragmentText, hmarkup]
    exact ⟨_, m, rfl, hreadable.read?_write settings.indent settings.declaration, hshows⟩

def labelled : List Edit :=
  [.append root "g", .addClass ⟨1⟩ "group", .addClass ⟨1⟩ "wide", .append ⟨1⟩ "text",
    .setAttribute ⟨2⟩ "title" "\"a\" < b", .setText ⟨2⟩ " a & b\n"]

theorem labelled_read : (edited labelled).IsTree ∧
    (∀ n, ReflTransGen (edited labelled).Up n root →
      ∀ e ∈ (edited labelled).element? n, e.Writable) ∧
    ∃ text, (edited labelled).text .standard = .ends text ∧
      read? text = some (.element "svg" [("xmlns", namespaceUri)] none
        [.element "g" [("class", "viz-group viz-wide")] none
          [.element "text" [("title", "\"a\" < b")] (some " a & b\n") []]]) := by
  have horderly : Orderly labelled := by
    intro before e after heq
    have hmem : e ∈ labelled := by simp [heq]
    simp only [labelled, List.mem_cons, List.not_mem_nil, or_false] at hmem
    rcases hmem with rfl | rfl | rfl | rfl | rfl | rfl <;> exact id
  have hwritable : ∀ n, ReflTransGen (edited labelled).Up n root →
      ∀ e ∈ (edited labelled).element? n, e.Writable := by
    rintro ⟨i⟩ - e he
    match i with
    | 0 => cases he; exact ⟨by decide, by decide, .inl rfl, .inl rfl⟩
    | 1 => cases he; exact ⟨by decide, by decide, .inl rfl, .inr (by decide)⟩
    | 2 => cases he; exact ⟨by decide, by decide, .inr rfl, .inl rfl⟩
    | i + 3 => cases he
  have htree := isTree_edited horderly
  obtain ⟨text, m, htext, hread, hshows⟩ :=
    written_document_reads_back labelled htree hwritable .standard
  obtain ⟨he, hchildren⟩ := hshows
  cases he
  obtain _ | ⟨⟨he, hchildren⟩, _ | _⟩ := hchildren
  cases he
  obtain _ | ⟨⟨he, hchildren⟩, _ | _⟩ := hchildren
  cases he
  cases hchildren
  exact ⟨htree, hwritable, text, htext, hread⟩

end Document
end Scene.Svg
