import Mathlib.Data.List.Basic

/-! Replacing characters of a text by other texts. Several replacements, one after the other, are one
pass over the characters if no replacement looks for what an earlier one has put in. -/
namespace Scene.Text
open String.Slice (Pos)
open String.Slice.Pattern Model

def replaceChar (c : Char) (image cs : List Char) : List Char :=
  cs.flatMap fun x => if x = c then image else [x]

variable {c : Char} {image cs : List Char}

theorem replaceChar_of_not_mem (h : c ∉ cs) : replaceChar c image cs = cs := by
  induction cs with
  | nil => rfl
  | cons x cs ih =>
    rw [List.mem_cons, not_or] at h
    have hrest := ih h.2
    rw [replaceChar] at hrest ⊢
    rw [List.flatMap_cons, if_neg (Ne.symm h.1), hrest, List.singleton_append]

/-! The library searches a text for the character, and puts together what it finds between. -/

/-- A stretch in which nothing matches does not hold the character. -/
theorem not_mem_of_not_matchesAt {s : String.Slice} {p q : s.Pos} (hle : p ≤ q)
    (h : ∀ r, p ≤ r → r < q → ¬MatchesAt c r) : c ∉ (s.slice p q hle).copy.toList := by
  intro hmem
  obtain ⟨before, after, hsplit⟩ := List.append_of_mem hmem
  obtain ⟨t₁, t₃, hp, hq⟩ := String.Slice.copy_slice_eq_iff_splits.mp ⟨hle, rfl⟩
  have hstretch : (s.slice p q hle).copy =
      .ofList before ++ (String.singleton c ++ .ofList after) := by
    rw [← String.toList_inj, hsplit]
    simp
  rw [hstretch] at hp hq
  have hs : s.copy = t₁ ++ .ofList before ++ (String.singleton c ++ (.ofList after ++ t₃)) := by
    rw [hp.eq_append]
    simp only [String.append_assoc]
  have hr := Pos.splits_ofEqAppend hs
  refine h (Pos.ofEqAppend hs) ?_ ?_ (Char.matchesAt_iff_splits.mpr ⟨_, _, hr⟩)
  · refine (hp.le_iff_exists_eq_append hr).mpr ⟨.ofList before, rfl, ?_⟩
    simp only [String.append_assoc]
  · refine (hr.lt_iff_exists_eq_append hq).mpr ⟨String.singleton c ++ .ofList after, by simp, ?_, ?_⟩
    all_goals simp only [String.append_assoc]

/-- What is put together from the steps of a search. -/
theorem toList_foldl_steps {s : String.Slice} {p : s.Pos} {steps : List (SearchStep s)}
    (h : IsValidSearchFrom c p steps) (sofar r : String) :
    (steps.foldl (fun
      | sofar, .matched .. => sofar ++ String.ToSlice.toSlice r
      | sofar, .rejected start stop => sofar ++ s.slice! start stop) sofar).toList =
      sofar.toList ++ replaceChar c r.toList (s.sliceFrom p).copy.toList := by
  induction h generalizing sofar with
  | endPos => simp [replaceChar]
  | @matched steps start stop hmatch _ ih =>
    obtain ⟨hne, rfl, hget⟩ := Char.isLongestMatchAt_iff.mp hmatch
    have hr : (String.ToSlice.toSlice r).copy = r := String.copy_toSlice
    rw [List.foldl_cons, ih, (start.splits_next_right hne).copy_sliceFrom_eq]
    simp [replaceChar, hget, hr]
  | @mismatched steps start stop hlt hno _ ih =>
    have hle := Std.le_of_lt hlt
    have hsame : replaceChar c r.toList (s.slice start stop hle).copy.toList = _ :=
      replaceChar_of_not_mem (not_mem_of_not_matchesAt hle hno)
    obtain ⟨t₁, t₃, hstart, hstop⟩ := String.Slice.copy_slice_eq_iff_splits.mp ⟨hle, rfl⟩
    have hslice : s.slice! start stop = s.slice start stop hle := String.Slice.slice_eq_slice!.symm
    rw [List.foldl_cons, ih, hstart.copy_sliceFrom_eq, hstop.copy_sliceFrom_eq]
    rw [replaceChar] at hsame
    simp [replaceChar, hsame, hslice]

theorem toList_replace (s r : String) (c : Char) :
    (s.replace c r).toList = replaceChar c r.toList s.toList := by
  have hsearch : IsValidSearchFrom c s.toSlice.startPos
      (ToForwardSearcher.toSearcher c s.toSlice).toList :=
    LawfulToForwardSearcherModel.isValidSearchFrom_toList _
  rw [String.replace, String.Slice.replace, ← Std.Iter.foldl_toList]
  refine (toList_foldl_steps hsearch "" r).trans ?_
  simp

/-! Several replacements. -/

def replaceInTurn (table : List (Char × List Char)) (cs : List Char) : List Char :=
  table.foldl (fun cs p => replaceChar p.1 p.2 cs) cs

def imageOf (table : List (Char × List Char)) (c : Char) : List Char := (table.lookup c).getD [c]

theorem imageOf_of_forall_ne {table : List (Char × List Char)} (h : ∀ p ∈ table, p.1 ≠ c) :
    imageOf table c = [c] := by
  have hnone : table.lookup c = none :=
    List.lookup_eq_none_iff.mpr fun p hp => bne_iff_ne.mpr (Ne.symm (h p hp))
  rw [imageOf, hnone, Option.getD_none]

/-- In one pass, if no character is looked for after it was put in. -/
theorem replaceInTurn_eq_flatMap {table : List (Char × List Char)}
    (h : table.Pairwise fun p q => q.1 ∉ p.2) (cs : List Char) :
    replaceInTurn table cs = cs.flatMap (imageOf table) := by
  induction table generalizing cs with
  | nil => exact (List.flatMap_singleton' cs).symm
  | cons p table ih =>
    obtain ⟨hp, htable⟩ := List.pairwise_cons.mp h
    have hkept : p.2.flatMap (imageOf table) = p.2 := by
      have hsingle : ∀ x ∈ p.2, imageOf table x = [x] := fun x hx =>
        imageOf_of_forall_ne fun q hq heq => hp q hq (heq ▸ hx)
      rw [List.flatMap_congr hsingle, List.flatMap_singleton']
    rw [replaceInTurn, List.foldl_cons, ← replaceInTurn, ih htable, replaceChar,
      List.flatMap_assoc]
    refine List.flatMap_congr fun x _ => ?_
    by_cases hx : x = p.1
    · rw [if_pos hx, hkept, hx, imageOf, List.lookup_cons_self, Option.getD_some]
    · have hother : imageOf (p :: table) x = imageOf table x := by
        rw [imageOf, List.lookup_cons, beq_false_of_ne hx]
        rfl
      rw [if_neg hx, hother, List.flatMap_singleton]

/-- The order matters: what the first replacement puts in, the second one may find. -/
example : replaceInTurn [('<', "&lt;".toList), ('&', "&amp;".toList)] ['<'] = "&amp;lt;".toList ∧
    replaceInTurn [('&', "&amp;".toList), ('<', "&lt;".toList)] ['<'] = "&lt;".toList := by
  decide

end Scene.Text
