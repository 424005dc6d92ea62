import Mathlib.Data.List.Infix
import Scene.Proofs.Svg.Reading
import Scene.Proofs.Text.Replacement

/-! Escaped text. It can stand anywhere in markup, and says what was escaped: its entities, read from
left to right, are the characters that it was made from, be they a part of an entity themselves. -/
namespace Scene.Svg
open Text

variable {c : Char} {cs rest : List Char}

/-! Escaping as five replacements. -/

/-- The entity that begins all others is replaced first, so no replacement finds what another one
has put in. -/
theorem entities_in_order : entities.Pairwise fun p q => q.1 ∉ p.2 := by decide

theorem replaceInTurn_entities (cs : List Char) : replaceInTurn entities cs = escapeChars cs :=
  replaceInTurn_eq_flatMap entities_in_order cs

theorem replace_eq_escape (s : String) :
    ((((s.replace '&' "&amp;").replace '<' "&lt;").replace '>' "&gt;").replace '"' "&quot;").replace
      '\'' "&apos;" = escape s := by
  rw [← String.toList_inj, escape, String.toList_ofList, ← replaceInTurn_entities]
  simp only [toList_replace, replaceInTurn, entities, List.foldl_cons, List.foldl_nil]

/-! What stands behind the mark that entities begin with. -/

theorem entities_begin_once : ∀ p ∈ entities, ∀ t ∈ p.2.tails, t.head? = some '&' → t = p.2 := by
  decide

theorem escapeChar_ne_nil (c : Char) : escapeChar c ≠ [] := by
  by_cases hc : c ∈ ['&', '<', '>', '"', '\'']
  · have hsome : ∀ p ∈ entities, p.2 ≠ [] := by decide
    exact hsome _ (escapeChar_mem_entities hc)
  · simp [escapeChar_of_plain hc]

theorem entity_of_suffix (h : '&' :: rest <:+ escapeChars cs) :
    ∃ p ∈ entities, p.2 <+: '&' :: rest := by
  induction cs with
  | nil => cases List.suffix_nil.mp h
  | cons c cs ih =>
    obtain ⟨before, heq⟩ := h
    rw [escapeChars_cons, List.append_eq_append_iff] at heq
    rcases heq with ⟨t, hchar, hsplit⟩ | ⟨t, -, hsplit⟩
    · -- the mark stands in what became of the first character, or right behind it
      cases t with
      | nil => exact ih ⟨[], hsplit⟩
      | cons x t =>
        obtain ⟨rfl, hrest⟩ := List.cons.inj hsplit
        by_cases hc : c ∈ ['&', '<', '>', '"', '\'']
        · have hentity := escapeChar_mem_entities hc
          have htail : '&' :: t ∈ (escapeChar c).tails :=
            (List.mem_tails _ _).mpr ⟨before, hchar.symm⟩
          have hwhole := entities_begin_once _ hentity _ htail rfl
          exact ⟨_, hentity, escapeChars cs, by rw [← hwhole, hsplit]⟩
        · rw [escapeChar_of_plain hc] at hchar
          have hmem : '&' ∈ [c] := by simp [hchar]
          exact absurd (by simp [← List.mem_singleton.mp hmem]) hc
    · exact ih ⟨t, hsplit.symm⟩

/-! Entities read back. -/

theorem entity?_escapeChar (hc : c ∈ ['&', '<', '>', '"', '\'']) (rest : List Char) :
    entity? (escapeChar c ++ rest) = some (c, rest) := by
  simp only [List.mem_cons, List.not_mem_nil, or_false] at hc
  rcases hc with rfl | rfl | rfl | rfl | rfl <;> rfl

theorem entity?_of_ne (hc : c ≠ '&') (rest : List Char) : entity? (c :: rest) = none := by
  simp [entity?, entities, List.findSome?, hc.symm]

theorem unescapeChars_escapeChar (fuel : Nat) (c : Char) (rest : List Char) :
    unescapeChars (fuel + 1) (escapeChar c ++ rest) = c :: unescapeChars fuel rest := by
  by_cases hc : c ∈ ['&', '<', '>', '"', '\'']
  · have hentity := entity?_escapeChar hc rest
    obtain ⟨x, xs, hchars⟩ := List.exists_cons_of_ne_nil (escapeChar_ne_nil c)
    rw [hchars, List.cons_append] at hentity ⊢
    rw [unescapeChars, hentity]
  · rw [escapeChar_of_plain hc, List.singleton_append, unescapeChars, entity?_of_ne]
    rintro rfl
    exact hc (by decide)

theorem unescapeChars_escapeChars {fuel : Nat} (hfuel : cs.length ≤ fuel) :
    unescapeChars fuel (escapeChars cs) = cs := by
  induction cs generalizing fuel with
  | nil => cases fuel <;> rfl
  | cons c cs ih =>
    obtain ⟨fuel, rfl⟩ := Nat.exists_eq_add_of_le' hfuel
    rw [escapeChars_cons, List.length_cons, ← Nat.add_assoc, unescapeChars_escapeChar, ih]
    exact Nat.le_add_left _ _

theorem length_le_length_escapeChars (cs : List Char) : cs.length ≤ (escapeChars cs).length := by
  induction cs with
  | nil => exact Nat.le_refl 0
  | cons c cs ih =>
    have hchar := List.length_pos_of_ne_nil (escapeChar_ne_nil c)
    rw [escapeChars_cons, List.length_append, List.length_cons]
    omega

theorem unescape_escape (s : String) : unescape (escape s) = s := by
  have hfuel := length_le_length_escapeChars s.toList
  rw [unescape, escape, String.toList_ofList, unescapeChars_escapeChars, String.ofList_toList]
  simpa using hfuel

/-- Escaping puts an entity in the place of each of the five marks, in any text. What comes out has
no mark but those that its entities begin with, is put together from what comes out of any parts,
and is read back by reading its entities. -/
theorem escape_lossless (s : String) :
    ((((s.replace '&' "&amp;").replace '<' "&lt;").replace '>' "&gt;").replace '"' "&quot;").replace
        '\'' "&apos;" = escape s ∧
      (∀ mark ∈ ['<', '>', '"', '\''], mark ∉ (escape s).toList) ∧
      (∀ rest, '&' :: rest <:+ (escape s).toList → ∃ p ∈ entities, p.2 <+: '&' :: rest) ∧
      (∀ t, escape (s ++ t) = escape s ++ escape t) ∧ unescape (escape s) = s := by
  have hchars : (escape s).toList = escapeChars s.toList := String.toList_ofList
  refine ⟨replace_eq_escape s, fun mark hmark => ?_, fun rest hrest => ?_, fun t => ?_,
    unescape_escape s⟩
  · rw [hchars]
    exact not_mem_escapeChars hmark
  · rw [hchars] at hrest
    exact entity_of_suffix hrest
  · simp only [escape, String.toList_append, escapeChars_append, String.ofList_append]

example : escape "a &lt; b" = "a &amp;lt; b" ∧ unescape "a &amp;lt; b" = "a &lt; b" := by
  decide +kernel

end Scene.Svg
