import Mathlib.Data.List.Forall2
import Mathlib.Data.List.Perm.Subperm
import Mathlib.Data.List.Range
import Scene.Proofs.Svg.Tree
import Scene.Svg.Markup

/-! Walks along the links of a document end where no link leads back: a walk that meets no element
twice meets no more than there are. -/
namespace Scene.Svg
open Relation

namespace Walk
variable {β γ : Type}

instance : LawfulMonad Walk :=
  .mk' Walk (fun w => by cases w <;> rfl) (fun _ _ => rfl) fun w _ _ => by cases w <;> rfl

theorem exists_ends {w : Walk β} (h : w ≠ .endless) : ∃ b, w = .ends b := by
  cases w with
  | ends b => exact ⟨b, rfl⟩
  | endless => exact absurd rfl h

theorem mapM_eq_endless {f : γ → Walk β} {l : List γ} :
    l.mapM f = .endless ↔ ∃ c ∈ l, f c = .endless := by
  induction l with
  | nil =>
    refine iff_of_false (fun h => ?_) (by simp)
    cases h
  | cons c l ih =>
    rw [List.mapM_cons, List.exists_mem_cons_iff, ← ih]
    cases f c with
    | endless => exact iff_of_true rfl (.inl rfl)
    | ends b =>
      cases l.mapM f with
      | endless => exact iff_of_true rfl (.inr rfl)
      | ends bs => exact iff_of_false nofun nofun

/-- What a walk finds from every element of a list, in order. -/
theorem mapM_eq_ends {f : γ → Walk β} {l : List γ} {bs : List β} :
    l.mapM f = .ends bs ↔ List.Forall₂ (fun c b => f c = .ends b) l bs := by
  induction l generalizing bs with
  | nil =>
    rw [List.forall₂_nil_left_iff]
    exact ⟨fun h => by cases h; rfl, fun h => by rw [h]; rfl⟩
  | cons c l ih =>
    rw [List.mapM_cons, List.forall₂_cons_left_iff]
    simp only [← ih]
    cases hc : f c with
    | endless => exact iff_of_false nofun (by simp)
    | ends b =>
      cases hl : l.mapM f with
      | endless => exact iff_of_false nofun (by simp)
      | ends bs' =>
        constructor
        · intro h
          cases h
          exact ⟨b, bs', rfl, rfl, rfl⟩
        · rintro ⟨_, _, hb, hbs, rfl⟩
          cases hb
          cases hbs
          rfl

end Walk

namespace Document
variable {d : Document} {n m p c : NodeId} {k : Nat}

theorem length_le_size {path : List NodeId} (hpath : path.Nodup)
    (hin : ∀ x ∈ path, d.contains x = true) : path.length ≤ d.nodes.size := by
  have hindex : (path.map NodeId.index).Nodup := hpath.map fun _ _ => NodeId.ext
  have hsub : path.map NodeId.index ⊆ List.range d.nodes.size := by
    intro i hi
    obtain ⟨x, hx, rfl⟩ := List.mem_map.mp hi
    simpa [contains] using hin x hx
  simpa using (List.subperm_of_subset hindex hsub).length_le

def HasWay (d : Document) (R : NodeId → NodeId → Prop) (n : NodeId) (k : Nat) : Prop :=
  ∃ path : List NodeId, path.length = k ∧ (∀ x ∈ path, d.contains x = true) ∧
    (∀ x ∈ path, ReflTransGen R n x) ∧ path.Pairwise (TransGen R)

namespace HasWay
variable {R : NodeId → NodeId → Prop}

theorem zero : d.HasWay R n 0 := ⟨[], rfl, by simp, by simp, .nil⟩

theorem succ (hn : d.contains n = true) (hstep : R n m) (h : d.HasWay R m k) :
    d.HasWay R n (k + 1) := by
  obtain ⟨path, rfl, hin, hreach, hpair⟩ := h
  refine ⟨n :: path, rfl, ?_, ?_, ?_⟩
  · simpa [hn] using hin
  · intro x hx
    rcases List.mem_cons.mp hx with rfl | hx
    · exact .refl
    · exact .head hstep (hreach x hx)
  · exact List.pairwise_cons.mpr ⟨fun x hx => TransGen.head' hstep (hreach x hx), hpair⟩

theorem le_size (h : d.HasWay R n k) (hR : ∀ x, ¬ TransGen R x x) : k ≤ d.nodes.size := by
  obtain ⟨path, rfl, hin, -, hpair⟩ := h
  refine length_le_size (hpair.imp fun hxy => ?_) hin
  rintro rfl
  exact hR _ hxy

end HasWay

theorem hasWay_of_climb (h : d.climb k n = .endless) : d.HasWay d.Up n k := by
  induction k generalizing n with
  | zero => exact .zero
  | succ k ih =>
    rw [climb] at h
    split at h
    · cases h
    · cases hp : d.parent? n with
      | none => simp [hp] at h
      | some p =>
        rw [hp] at h
        exact .succ (contains_of_parent? hp) hp (ih h)

theorem subtree_succ_eq_endless {classPrefix : Option String} :
    d.subtree classPrefix (k + 1) n = .endless ↔
      ∃ c ∈ d.children n, d.subtree classPrefix k c = .endless := by
  rw [subtree, children]
  cases d.element? n with
  | none => exact iff_of_false (by simp) (by simp)
  | some e =>
    rw [← Walk.mapM_eq_endless]
    dsimp only
    cases e.children.mapM (d.subtree classPrefix k) with
    | endless => exact iff_of_true rfl rfl
    | ends ms =>
      refine iff_of_false (fun h => ?_) (fun h => ?_)
      · cases h
      · cases h

/-- The tree under an element has the trees under its children, where there are any. -/
theorem subtree_succ_eq_ends {classPrefix : Option String} {e : Element} {r : Option Markup}
    (he : d.element? n = some e) (hr : d.subtree classPrefix (k + 1) n = .ends r) :
    ∃ rs, List.Forall₂ (fun c r => d.subtree classPrefix k c = .ends r) e.children rs ∧
      r = some (.element e.tag (e.writtenAttributes classPrefix) e.text (rs.filterMap id)) := by
  rw [subtree, he] at hr
  dsimp only at hr
  cases hrs : e.children.mapM (d.subtree classPrefix k) with
  | endless =>
    rw [hrs] at hr
    cases hr
  | ends rs =>
    rw [hrs] at hr
    cases hr
    exact ⟨rs, Walk.mapM_eq_ends.mp hrs, rfl⟩

theorem hasWay_of_subtree (hl : d.Linked) {classPrefix : Option String}
    (h : d.subtree classPrefix k n = .endless) : d.HasWay (fun p c => d.Up c p) n k := by
  induction k generalizing n with
  | zero => exact .zero
  | succ k ih =>
    obtain ⟨c, hc, hend⟩ := subtree_succ_eq_endless.mp h
    exact .succ (contains_of_mem_children hc) ((hl.agree c n).mp hc) (ih hend)

structure Searching (d : Document) (seen stack : List NodeId) : Prop where
  nodup : (seen ++ stack).Nodup
  contained : ∀ x ∈ seen ++ stack, d.contains x = true
  underRoot : ∀ x ∈ seen ++ stack, ReflTransGen d.Up x root
  reached : ∀ x ∈ seen ++ stack, x = root ∨ ∃ p ∈ seen, d.Up x p

theorem Searching.start (h : d.contains root = true) : d.Searching [] [root] where
  nodup := List.nodup_singleton _
  contained := by simpa using h
  underRoot := by simp [ReflTransGen.refl]
  reached := by simp

theorem Searching.children_new {seen rest : List NodeId} (h : d.Searching seen (n :: rest))
    (hl : d.Linked) (ht : d.IsTree) (hc : c ∈ d.children n) : c ∉ seen ++ n :: rest := by
  intro hmem
  have hup : d.Up c n := (hl.agree c n).mp hc
  -- what was met is the root, which `n` lies under, or has a parent among those seen, unlike `c`
  rcases h.reached c hmem with rfl | ⟨p, hp, hcp⟩
  · exact ht root (TransGen.head' hup (h.underRoot n (by simp)))
  · obtain rfl : p = n := Option.some.inj (hcp.symm.trans hup)
    exact (List.nodup_append.mp h.nodup).2.2 p hp p List.mem_cons_self rfl

theorem Searching.next {seen rest : List NodeId} (h : d.Searching seen (n :: rest))
    (hl : d.Linked) (ht : d.IsTree) : d.Searching (n :: seen) (d.children n ++ rest) := by
  have hmem (x : NodeId) : x ∈ n :: seen ++ (d.children n ++ rest) ↔
      x ∈ seen ++ n :: rest ∨ x ∈ d.children n := by
    simp only [List.mem_append, List.mem_cons]
    tauto
  have hup {x : NodeId} (hx : x ∈ d.children n) : d.Up x n := (hl.agree x n).mp hx
  refine ⟨?_, ?_, ?_, ?_⟩
  · have hperm : (n :: seen ++ (d.children n ++ rest)).Perm
        (d.children n ++ (seen ++ n :: rest)) := by
      refine List.perm_iff_count.mpr fun a => ?_
      simp only [List.count_append, List.count_cons]
      omega
    rw [hperm.nodup_iff]
    refine List.nodup_append.mpr ⟨hl.nodup n, h.nodup, fun a ha b hb hab => ?_⟩
    exact h.children_new hl ht ha (hab ▸ hb)
  · intro x hx
    rcases (hmem x).mp hx with hx | hx
    · exact h.contained x hx
    · exact hl.contains_child hx
  · intro x hx
    rcases (hmem x).mp hx with hx | hx
    · exact h.underRoot x hx
    · exact .head (hup hx) (h.underRoot n (by simp))
  · intro x hx
    rcases (hmem x).mp hx with hx | hx
    · rcases h.reached x hx with hroot | ⟨p, hp, hxp⟩
      · exact .inl hroot
      · exact .inr ⟨p, List.mem_cons_of_mem _ hp, hxp⟩
    · exact .inr ⟨n, List.mem_cons_self, hup hx⟩

theorem search_ends {seen stack : List NodeId} (h : d.Searching seen stack) (hl : d.Linked)
    (ht : d.IsTree) (id : String) (hk : d.nodes.size ≤ seen.length + k) :
    ∃ r, d.search id k stack = .ends r := by
  -- every step adds to what was seen, and nothing is seen twice
  induction k generalizing seen stack with
  | zero =>
    have hcount := length_le_size h.nodup h.contained
    cases stack with
    | nil => exact ⟨none, rfl⟩
    | cons n rest =>
      simp only [List.length_append, List.length_cons] at hcount
      omega
  | succ k ih =>
    cases stack with
    | nil => exact ⟨none, rfl⟩
    | cons n rest =>
      rw [search]
      split
      · exact ⟨some n, rfl⟩
      · exact ih (h.next hl ht) (by simp only [List.length_cons]; omega)

theorem isAttached_ends (ht : d.IsTree) (n : NodeId) : ∃ b, d.isAttached n = .ends b := by
  refine Walk.exists_ends fun h => ?_
  have := (hasWay_of_climb h).le_size ht
  omega

theorem fragmentText_ends (hl : d.Linked) (ht : d.IsTree) (n : NodeId)
    (settings : Settings.Writing) : ∃ text, d.fragmentText n settings = .ends text := by
  have hdown (x : NodeId) : ¬ TransGen (fun p c => d.Up c p) x x := by
    intro h
    exact ht x (transGen_swap.mp h)
  obtain ⟨m, hm⟩ : ∃ m, d.markup settings.classPrefix n = .ends m := by
    refine Walk.exists_ends fun h => ?_
    have := (hasWay_of_subtree hl h).le_size hdown
    omega
  rw [fragmentText, hm]
  exact ⟨_, rfl⟩

theorem text_ends (hl : d.Linked) (ht : d.IsTree) (settings : Settings.Writing) :
    ∃ text, d.text settings = .ends text := by
  obtain ⟨body, hbody⟩ := fragmentText_ends hl ht root settings
  rw [text, hbody]
  exact ⟨_, rfl⟩

theorem findById_ends (hl : d.Linked) (ht : d.IsTree) (hroot : d.contains root = true)
    (id : String) : ∃ r, d.findById id = .ends r :=
  search_ends (.start hroot) hl ht id (by simp)

/-- As long as no edit puts an element below itself, a document is a tree, and every question about
it has an answer. An edit that does leaves no tree, and there is no other that does so. -/
theorem orderly_edits_keep_tree (edits : List Edit) (h : Orderly edits) :
    (edited edits).IsTree ∧
      (∀ n, ∃ b, (edited edits).isAttached n = .ends b) ∧
      (∀ id, ∃ r, (edited edits).findById id = .ends r) ∧
      (∀ settings, ∃ text, (edited edits).text settings = .ends text) ∧
      ∀ e : Edit, (edited (edits ++ [e])).IsTree ↔ ¬ e.Entangles (edited edits) := by
  have hl := linked_edited edits
  have ht := isTree_edited h
  refine ⟨ht, isAttached_ends ht, findById_ends hl ht (contains_root_edited edits),
    text_ends hl ht, fun e => ?_⟩
  rw [edited_concat]
  exact ht.apply_iff hl e

theorem replaced_by_neighbour :
    Orderly [.append root "g", .append root "rect", .replace ⟨1⟩ ⟨2⟩] ∧
      (edited [.append root "g", .append root "rect", .replace ⟨1⟩ ⟨2⟩]).IsTree := by
  have horderly : Orderly ([.append root "g", .append root "rect"] ++ [.replace ⟨1⟩ ⟨2⟩]) := by
    have hfirst : Orderly ([] ++ [.append root "g"]) := orderly_concat.mpr ⟨orderly_nil, id⟩
    refine orderly_concat.mpr ⟨orderly_concat.mpr ⟨hfirst, id⟩, fun habove => ?_⟩
    obtain ⟨p, hp, hway⟩ := TransGen.head'_iff.mp habove
    cases hp
    rcases ReflTransGen.cases_head hway with heq | ⟨q, hq, -⟩
    · cases heq
    · cases hq
  exact ⟨horderly, (orderly_edits_keep_tree _ horderly).1⟩

def embraced : Document :=
  edited [.append root "g", .append ⟨1⟩ "g", .appendChild ⟨2⟩ ⟨1⟩]

def supplanted : Document :=
  edited [.append root "g", .append ⟨1⟩ "g", .replace ⟨2⟩ ⟨1⟩]

def overturned : Document := edited [.append root "g", .appendChild ⟨1⟩ root]

/-- Edits can make an element its own ancestor. Then no number of steps is enough to walk up from it,
or down from a root like that. -/
theorem edits_can_circle :
    embraced.Above ⟨1⟩ ⟨1⟩ ∧ supplanted.Above ⟨1⟩ ⟨1⟩ ∧ overturned.Above root root ∧
      (∀ k, embraced.climb k ⟨1⟩ = .endless) ∧
      (∀ k, overturned.search "x" k [root] = .endless) ∧
      ∀ k, overturned.subtree none k root = .endless := by
  have hup : embraced.parent? ⟨1⟩ = some ⟨2⟩ ∧ embraced.parent? ⟨2⟩ = some ⟨1⟩ := ⟨rfl, rfl⟩
  have hself : supplanted.parent? ⟨1⟩ = some ⟨1⟩ := rfl
  have hroot : overturned.parent? root = some ⟨1⟩ ∧ overturned.parent? ⟨1⟩ = some root :=
    ⟨rfl, rfl⟩
  have hclimb (k : Nat) :
      embraced.climb k ⟨1⟩ = .endless ∧ embraced.climb k ⟨2⟩ = .endless := by
    induction k with
    | zero => exact ⟨rfl, rfl⟩
    | succ k ih => exact ⟨ih.2, ih.1⟩
  have hsearch (k : Nat) : overturned.search "x" k [root] = .endless ∧
      overturned.search "x" k [⟨1⟩] = .endless := by
    induction k with
    | zero => exact ⟨rfl, rfl⟩
    | succ k ih => exact ⟨ih.2, ih.1⟩
  have hsubtree (k : Nat) : overturned.subtree none k root = .endless ∧
      overturned.subtree none k ⟨1⟩ = .endless := by
    induction k with
    | zero => exact ⟨rfl, rfl⟩
    | succ k ih =>
      exact ⟨subtree_succ_eq_endless.mpr ⟨⟨1⟩, List.mem_cons_self, ih.2⟩,
        subtree_succ_eq_endless.mpr ⟨root, List.mem_cons_self, ih.1⟩⟩
  exact ⟨.head hup.1 (.single hup.2), .single hself, .head hroot.1 (.single hroot.2),
    fun k => (hclimb k).1, fun k => (hsearch k).1, fun k => (hsubtree k).1⟩

end Document
end Scene.Svg
