import Mathlib.Tactic.Common
import Scene.Dict

/-! Maps in key order: what is found under a key is what stands there, and of two maps laid over one
another the upper one decides. -/
namespace Scene.Dict
variable {β γ : Type} {d base top : Dict β} {key : String} {v : β}

instance (d : Dict β) : Decidable d.Sorted :=
  inferInstanceAs (Decidable (d.Pairwise fun a b => a.1 < b.1))

theorem get?_insert (d : Dict β) (key : String) (v : β) (other : String) :
    get? (insert d key v) other = if other = key then some v else get? d other := by
  by_cases h : other = key
  · rw [if_pos h, h, get?_insert_self]
  · rw [if_neg h, get?_insert_of_ne d v h]

theorem mem_of_mem_insert {e : String × β} (h : e ∈ insert d key v) : e = (key, v) ∨ e ∈ d := by
  induction d with
  | nil => simpa [insert] using h
  | cons f rest ih =>
    rw [insert] at h
    split at h
    · simpa using h
    · split at h
      · rcases List.mem_cons.mp h with he | hrest
        · exact .inl he
        · exact .inr (List.mem_cons_of_mem f hrest)
      · rcases List.mem_cons.mp h with he | hrest
        · exact .inr (he ▸ List.mem_cons_self)
        · exact (ih hrest).imp id (List.mem_cons_of_mem f)

theorem get?_erase_of_ne (d : Dict β) {key other : String} (h : other ≠ key) :
    get? (erase d key) other = get? d other := by
  induction d with
  | nil => rfl
  | cons e rest ih =>
    obtain ⟨k, v⟩ := e
    by_cases hk : k = key
    · have hskip : k ≠ other := fun heq => h (heq.symm.trans hk)
      simpa [erase, get?, hk, hk ▸ hskip] using ih
    · simpa [erase, get?, hk] using congrArg (if k = other then some v else ·) ih

theorem erase_eq_self (h : ∀ e ∈ d, e.1 ≠ key) : erase d key = d :=
  List.filter_eq_self.mpr fun e he => decide_eq_true (h e he)

/-- An entry of a new key that is put in and taken out leaves nothing. -/
theorem erase_insert (h : ∀ e ∈ d, e.1 ≠ key) (v : β) : erase (insert d key v) key = d := by
  induction d with
  | nil => simp [insert, erase]
  | cons e rest ih =>
    obtain ⟨hfirst, hrest⟩ := List.forall_mem_cons.mp h
    rw [insert]
    split
    · rw [erase, List.filter_cons_of_neg (by simp)]
      exact erase_eq_self h
    · rw [if_neg (Ne.symm hfirst), erase, List.filter_cons_of_pos (by simpa using hfirst)]
      exact congrArg _ (ih hrest)

/-- What the lower map has stays. -/
theorem get?_complete_or (base extra : Dict β) (key : String) :
    get? (complete base extra) key = (get? base key).or (get? extra key) := by
  induction extra generalizing base with
  | nil => exact (Option.or_none ..).symm
  | cons e rest ih =>
    obtain ⟨k, v⟩ := e
    refine (ih _).trans ?_
    rw [get?]
    by_cases hk : k = key
    · subst hk
      cases hbase : get? base k with
      | none => simp [contains, hbase, get?_insert_self]
      | some u => simp [contains, hbase]
    · rw [if_neg hk]
      cases hbase : contains base k
      · simp [hbase, get?_insert_of_ne _ _ (Ne.symm hk)]
      · simp [hbase]

theorem get?_complete (base extra : Dict β) {key : String} {v : β} (h : get? base key = some v) :
    get? (complete base extra) key = some v := by
  rw [get?_complete_or, h, Option.some_or]

def put (d : Dict β) (key : String) (v? : Option β) : Dict β := v?.elim d (insert d key)

theorem get?_put (d : Dict β) (key : String) (v? : Option β) (other : String) :
    get? (put d key v?) other = if other = key then v?.or (get? d other) else get? d other := by
  cases v? with
  | none => simp [put]
  | some v => simp [put, get?_insert]

theorem forall_mem_insert {P : β → Prop} (h : ∀ e ∈ d, P e.2) (hv : P v) :
    ∀ e ∈ insert d key v, P e.2 := by
  intro e he
  rcases mem_of_mem_insert he with rfl | he
  · exact hv
  · exact h e he

theorem forall_mem_put {P : β → Prop} {v? : Option β} (h : ∀ e ∈ d, P e.2)
    (hv : ∀ v ∈ v?, P v) : ∀ e ∈ put d key v?, P e.2 := by
  cases v? with
  | none => exact h
  | some v => exact forall_mem_insert h (hv v rfl)

theorem mem_of_get? (h : get? d key = some v) : (key, v) ∈ d := by
  induction d with
  | nil => cases h
  | cons e rest ih =>
    obtain ⟨k, u⟩ := e
    rw [get?] at h
    split at h
    · next hk =>
      obtain rfl := Option.some.inj h
      exact hk ▸ List.mem_cons_self
    · exact List.mem_cons_of_mem _ (ih h)

theorem mem_keys_iff {d : Dict β} {key : String} : key ∈ keys d ↔ (get? d key).isSome = true := by
  induction d with
  | nil => simp [keys]
  | cons e rest ih =>
    obtain ⟨k, v⟩ := e
    have hkeys : keys ((k, v) :: rest) = k :: keys rest := rfl
    rw [hkeys, List.mem_cons, ih, get?]
    by_cases hk : k = key
    · simp [hk]
    · simp [hk, Ne.symm hk]

theorem mem_keys_insert (d : Dict β) (key : String) (v : β) (other : String) :
    other ∈ keys (insert d key v) ↔ other ∈ keys d ∨ other = key := by
  rw [mem_keys_iff, mem_keys_iff, get?_insert]
  by_cases h : other = key <;> simp [h]

theorem mem_keys_overlay (base top : Dict β) (key : String) :
    key ∈ keys (overlay base top) ↔ key ∈ keys base ∨ key ∈ top.map (·.1) := by
  rw [overlay]
  induction top generalizing base with
  | nil => simp
  | cons e rest ih =>
    rw [List.foldl_cons, ih, mem_keys_insert, List.map_cons, List.mem_cons, or_assoc]

theorem get?_erase (d : Dict β) (key other : String) :
    get? (erase d key) other = if other = key then none else get? d other := by
  split
  · next h =>
    refine Option.eq_none_iff_forall_ne_some.mpr fun v hv => ?_
    simpa [h] using (List.mem_filter.mp (mem_of_get? hv)).2
  · next h => exact get?_erase_of_ne d h

theorem forall_mem_overlay {P : β → Prop} (hbase : ∀ e ∈ base, P e.2) (htop : ∀ e ∈ top, P e.2) :
    ∀ e ∈ overlay base top, P e.2 := by
  induction top generalizing base with
  | nil => exact hbase
  | cons e rest ih =>
    have hparts := List.forall_mem_cons.mp htop
    exact ih (forall_mem_insert hbase hparts.1) hparts.2

theorem mem_of_mem_overlay {base top : Dict β} {e : String × β} (h : e ∈ overlay base top) :
    e ∈ base ∨ e ∈ top := by
  induction top generalizing base with
  | nil => exact .inl h
  | cons f rest ih =>
    have hrest : e ∈ insert base f.1 f.2 ∨ e ∈ rest := ih h
    rcases hrest with h | h
    · rcases mem_of_mem_insert h with rfl | h
      · exact .inr List.mem_cons_self
      · exact .inl h
    · exact .inr (List.mem_cons_of_mem f h)

theorem forall_mem_complete {P : β → Prop} {extra : Dict β} (hbase : ∀ e ∈ base, P e.2)
    (hextra : ∀ e ∈ extra, P e.2) : ∀ e ∈ complete base extra, P e.2 := by
  induction extra generalizing base with
  | nil => exact hbase
  | cons e rest ih =>
    have hparts := List.forall_mem_cons.mp hextra
    have hnext : ∀ f ∈ if contains base e.1 then base else insert base e.1 e.2, P f.2 := by
      split
      · exact hbase
      · exact forall_mem_insert hbase hparts.1
    exact ih hnext hparts.2

namespace Sorted

theorem tail {e : String × β} {rest : Dict β} (h : Sorted (e :: rest)) : Sorted rest :=
  (List.pairwise_cons.mp h).2

theorem head_lt {e f : String × β} {rest : Dict β} (h : Sorted (e :: rest)) (hf : f ∈ rest) :
    e.1 < f.1 :=
  (List.pairwise_cons.mp h).1 f hf

theorem keys_nodup (h : Sorted d) : (d.map (·.1)).Nodup := by
  refine List.pairwise_map.mpr (h.imp fun hlt heq => ?_)
  rw [heq] at hlt
  exact String.lt_irrefl _ hlt

theorem insert (h : Sorted d) (key : String) (v : β) : Sorted (insert d key v) := by
  induction d with
  | nil => exact List.pairwise_singleton _ _
  | cons e rest ih =>
    rw [Dict.insert]
    split
    · next hlt =>
      refine List.pairwise_cons.mpr ⟨fun f hf => ?_, h⟩
      rcases List.mem_cons.mp hf with rfl | hf
      · exact hlt
      · exact String.lt_trans hlt (h.head_lt hf)
    · next hlt =>
      split
      · next heq =>
        refine List.pairwise_cons.mpr ⟨fun f hf => ?_, h.tail⟩
        rw [heq]
        exact h.head_lt hf
      · next hne =>
        have hafter : e.1 < key := by grind
        refine List.pairwise_cons.mpr ⟨fun f hf => ?_, ih h.tail⟩
        rcases mem_of_mem_insert hf with rfl | hf
        · exact hafter
        · exact h.head_lt hf

theorem overlay (h : Sorted base) (top : Dict β) : Sorted (overlay base top) := by
  rw [Dict.overlay]
  induction top generalizing base with
  | nil => exact h
  | cons e rest ih => exact ih (h.insert e.1 e.2)

theorem complete (h : Sorted base) (extra : Dict β) : Sorted (complete base extra) := by
  rw [Dict.complete]
  induction extra generalizing base with
  | nil => exact h
  | cons e rest ih =>
    rw [List.foldl_cons]
    split
    · exact ih h
    · exact ih (h.insert e.1 e.2)

theorem get?_eq_some_iff (h : Sorted d) : get? d key = some v ↔ (key, v) ∈ d := by
  induction d with
  | nil => simp
  | cons e rest ih =>
    obtain ⟨k, u⟩ := e
    rw [get?, List.mem_cons, Prod.mk.injEq, ← ih h.tail]
    by_cases hk : k = key
    · have hout : get? rest key ≠ some v := by
        intro hrest
        have hlt : k < key := h.head_lt ((ih h.tail).mp hrest)
        rw [hk] at hlt
        exact String.lt_irrefl key hlt
      simp [hk, hout, eq_comm]
    · simp [hk, Ne.symm hk]

theorem erase (h : Sorted d) (key : String) : Sorted (erase d key) := List.Pairwise.filter _ h

/-- Maps in key order are the same where the same is found in them. -/
theorem ext {d' : Dict β} (h : Sorted d) (h' : Sorted d')
    (hsame : ∀ key, get? d key = get? d' key) : d = d' := by
  have hnodup {l : Dict β} (hl : Sorted l) : l.Nodup :=
    List.Pairwise.of_map _ (fun _ _ hkeys heq => hkeys (congrArg Prod.fst heq)) hl.keys_nodup
  have hperm : d.Perm d' := by
    refine (List.perm_ext_iff_of_nodup (hnodup h) (hnodup h')).mpr fun e => ?_
    rw [← h.get?_eq_some_iff, ← h'.get?_eq_some_iff, hsame]
  refine hperm.eq_of_pairwise (fun e f _ _ hlt hgt => ?_) h h'
  exact absurd (String.lt_trans hlt hgt) (String.lt_irrefl _)

theorem filterMap (h : Sorted d) (f : β → Option γ) :
    Sorted (d.filterMap fun e => (f e.2).map fun c => (e.1, c)) := by
  refine List.pairwise_filterMap.mpr (h.imp fun hlt a ha b hb => ?_)
  obtain ⟨_, _, rfl⟩ := Option.map_eq_some_iff.mp ha
  obtain ⟨_, _, rfl⟩ := Option.map_eq_some_iff.mp hb
  exact hlt

end Sorted

theorem get?_filterMap (h : Sorted d) (f : β → Option γ) (key : String) :
    get? (d.filterMap fun e => (f e.2).map fun c => (e.1, c)) key = (get? d key).bind f := by
  refine Option.ext fun c => ?_
  rw [(h.filterMap f).get?_eq_some_iff, List.mem_filterMap, Option.bind_eq_some_iff]
  constructor
  · rintro ⟨⟨k, u⟩, hmem, heq⟩
    obtain ⟨c', hc, hpair⟩ := Option.map_eq_some_iff.mp heq
    obtain ⟨rfl, rfl⟩ := Prod.mk.inj hpair
    exact ⟨u, h.get?_eq_some_iff.mpr hmem, hc⟩
  · rintro ⟨u, hu, hc⟩
    exact ⟨(key, u), h.get?_eq_some_iff.mp hu, by rw [hc]; rfl⟩

/-- What the upper map has hides what the lower one has. -/
theorem get?_overlay (base : Dict β) (h : Sorted top) (key : String) :
    get? (overlay base top) key = (get? top key).or (get? base key) := by
  rw [overlay]
  cases hkey : get? top key with
  | some v =>
    have hmem : (key, v) ∈ top := h.get?_eq_some_iff.mp hkey
    rw [get?_foldl_insert_of_mem top base h.keys_nodup hmem, Option.some_or]
  | none =>
    have hout : key ∉ top.map (·.1) := by
      intro hin
      obtain ⟨e, he, rfl⟩ := List.mem_map.mp hin
      have hfound := h.get?_eq_some_iff.mpr he
      rw [hkey] at hfound
      cases hfound
    rw [get?_foldl_insert_of_not_mem top base hout, Option.none_or]

/-! Maps whose values are changed one by one. -/

section
variable (f : β → γ)

@[simp] theorem mapValues_nil : mapValues f [] = [] := rfl

theorem get?_mapValues (d : Dict β) (key : String) :
    get? (mapValues f d) key = (get? d key).map f := by
  induction d with
  | nil => rfl
  | cons e rest ih =>
    change (if e.1 = key then some (f e.2) else get? (mapValues f rest) key) = _
    rw [get?, ih]
    split <;> rfl

theorem contains_mapValues (d : Dict β) (key : String) :
    contains (mapValues f d) key = contains d key := by
  rw [contains, get?_mapValues, Option.isSome_map, contains]

theorem mapValues_insert (d : Dict β) (key : String) (v : β) :
    mapValues f (insert d key v) = insert (mapValues f d) key (f v) := by
  induction d with
  | nil => rfl
  | cons e rest ih =>
    change _ = if key < e.1 then (key, f v) :: (e.1, f e.2) :: mapValues f rest
      else if key = e.1 then (key, f v) :: mapValues f rest
      else (e.1, f e.2) :: insert (mapValues f rest) key (f v)
    rw [insert, ← ih]
    split
    · rfl
    · split <;> rfl

theorem mapValues_erase (d : Dict β) (key : String) :
    mapValues f (erase d key) = erase (mapValues f d) key := by
  rw [erase, erase, mapValues, mapValues, List.filter_map]
  rfl

theorem mapValues_overlay (base top : Dict β) :
    mapValues f (overlay base top) = overlay (mapValues f base) (mapValues f top) := by
  induction top generalizing base with
  | nil => rfl
  | cons e rest ih =>
    exact (ih _).trans (congrArg (overlay · (mapValues f rest)) (mapValues_insert f base e.1 e.2))

theorem mapValues_complete (base extra : Dict β) :
    mapValues f (complete base extra) = complete (mapValues f base) (mapValues f extra) := by
  induction extra generalizing base with
  | nil => rfl
  | cons e rest ih =>
    refine (ih _).trans (congrArg (complete · (mapValues f rest)) ?_)
    dsimp only
    rw [contains_mapValues]
    split
    · rfl
    · exact mapValues_insert f base e.1 e.2

end

end Scene.Dict
