import Mathlib.Data.List.Induction
import Mathlib.Tactic.Common
import Scene.Engine
import Scene.Proofs.Resolution.Loop
import Scene.Scalar.Exact

/-! The guard of a resolution's loop. What the loop raises itself is told by the names it meets: a
name that comes back, or one more name than there is room for, whichever is first. -/
namespace Scene.Resolution
open Resolve
variable {φ α : Type}

section
variable {limit room n m : Nat} {step : Spec φ α → Resolve φ α (Props φ α × Visual φ α)}
  {met : List String} {outer : Option (Props φ α)} {spec next : Spec φ α} {w w' : Workspace φ α}
  {t : Spec φ α × Workspace φ α} {ts : List (Spec φ α × Workspace φ α)}

def typeNames (ts : List (Spec φ α × Workspace φ α)) : List String := ts.map (·.1.typeName)

theorem typeNames_append (ts us : List (Spec φ α × Workspace φ α)) :
    typeNames (ts ++ us) = typeNames ts ++ typeNames us :=
  List.map_append

theorem turns_of_next (h : next? step spec w = some (next, w')) :
    turns step (n + 1) spec w = (spec, w) :: turns step n next w' := by
  rw [turns, h]

theorem turns_of_last (h : next? step spec w = none) : turns step (n + 1) spec w = [(spec, w)] := by
  rw [turns, h]

theorem take_turns (h : n ≤ m) : (turns step m spec w).take n = turns step n spec w := by
  induction m generalizing n spec w with
  | zero =>
    obtain rfl : n = 0 := Nat.le_zero.mp h
    rfl
  | succ m ih =>
    cases n with
    | zero => rfl
    | succ n =>
      cases hn : next? step spec w with
      | none => rw [turns_of_last hn, turns_of_last hn, List.take_succ_cons, List.take_nil]
      | some r =>
        rw [turns_of_next hn, turns_of_next hn, List.take_succ_cons, ih (Nat.le_of_succ_le_succ h)]

/-- Where fewer specs come of one another than were asked for, nothing comes of the last. -/
theorem next?_of_turns (h : turns step n spec w = ts ++ [t]) (hlt : ts.length + 1 < n) :
    next? step t.1 t.2 = none := by
  induction ts generalizing n spec w with
  | nil =>
    obtain ⟨n, rfl⟩ : ∃ k, n = k + 2 := ⟨n - 2, by simp at hlt; omega⟩
    cases hn : next? step spec w with
    | none =>
      rw [turns_of_last hn] at h
      obtain rfl := (List.cons.inj h).1
      exact hn
    | some r =>
      rw [turns_of_next hn, turns] at h
      exact absurd h (by simp)
  | cons u ts ih =>
    obtain ⟨n, rfl⟩ : ∃ k, n = k + 1 := ⟨n - 1, by omega⟩
    cases hn : next? step spec w with
    | none =>
      rw [turns_of_last hn] at h
      exact absurd h (by simp)
    | some r =>
      rw [turns_of_next hn] at h
      exact ih (List.cons.inj h).2 (by simpa using hlt)

/-- Over names that are all new, the loop gets to the spec that comes last. -/
theorem follow_along (hturns : turns step (ts.length + 1) spec w = ts ++ [t])
    (hroom : ts.length ≤ room) (hnew : (met ++ typeNames ts).Nodup) :
    ∃ outer', follow limit step room met outer spec w =
      follow limit step (room - ts.length) (met ++ typeNames ts) outer' t.1 t.2 := by
  induction ts generalizing room met outer spec w with
  | nil =>
    obtain rfl : (spec, w) = t := by
      rw [turns] at hturns
      exact (List.cons.inj hturns).1
    exact ⟨outer, by simp [typeNames]⟩
  | cons u ts ih =>
    obtain ⟨room, rfl⟩ : ∃ r, room = r + 1 := ⟨room - 1, by simp at hroom; omega⟩
    cases hn : next? step spec w with
    | none =>
      rw [turns_of_last hn] at hturns
      exact absurd hturns (by simp)
    | some r =>
      obtain ⟨next, w'⟩ := r
      rw [turns_of_next hn] at hturns
      obtain ⟨rfl, hrest⟩ := List.cons.inj hturns
      obtain ⟨props, hs, hb⟩ := next?_eq_some.mp hn
      have hmet : met ++ typeNames ((spec, w) :: ts) =
          met ++ [spec.typeName] ++ typeNames ts := by simp [typeNames]
      have hfresh : spec.typeName ∉ met := by
        intro hm
        exact (List.nodup_append.mp hnew).2.2 _ hm _ (by simp [typeNames]) rfl
      rw [hmet] at hnew ⊢
      rw [follow_of_next hfresh hs hb, List.length_cons, Nat.add_sub_add_right]
      exact ih hrest (Nat.le_of_succ_le_succ hroom) hnew

/-- The first name that comes back ends the loop, with all names met. -/
theorem follow_of_repeat (hturns : turns step (ts.length + 1) spec w = ts ++ [t])
    (hroom : ts.length ≤ room) (hnew : (typeNames ts).Nodup) (hback : t.1.typeName ∈ typeNames ts) :
    follow limit step room [] outer spec w =
      some (.error (.infiniteLoop (typeNames ts ++ [t.1.typeName])), t.2) := by
  have hnew' : ([] ++ typeNames ts).Nodup := hnew
  obtain ⟨outer', h⟩ := follow_along hturns hroom hnew'
  rw [h, List.nil_append, follow_of_mem hback]
  rfl

/-- New names that use up the room end the loop at the one after them. -/
theorem follow_of_overrun (hturns : turns step (ts.length + 1) spec w = ts ++ [t])
    (hnew : (typeNames (ts ++ [t])).Nodup) :
    follow limit step ts.length [] outer spec w =
      some (.error (.depthExceeded t.1.typeName limit), t.2) := by
  rw [typeNames_append] at hnew
  obtain ⟨hts, -, hne⟩ := List.nodup_append.mp hnew
  have hnew' : ([] ++ typeNames ts).Nodup := hts
  have hlast : t.1.typeName ∉ typeNames ts := fun hm => hne _ hm _ (by simp [typeNames]) rfl
  obtain ⟨outer', h⟩ := follow_along hturns (Nat.le_refl _) hnew'
  rw [h, List.nil_append, Nat.sub_self, follow_zero hlast]
  rfl

theorem follow_of_last_guard {e : ResolveError α} (hfresh : spec.typeName ∉ met)
    (hn : next? step spec w = none)
    (h : follow limit step (room + 1) met outer spec w = some (.error e, w'))
    (hguard : e.category = .recursionGuard) : step spec w = some (.error e, w') := by
  rw [follow_succ hfresh, bind_run] at h
  rcases hs : step spec w with _ | ⟨e' | ⟨props, next | r⟩, w''⟩
  · simp [hs] at h
  · simpa [hs] using h
  · have hb : Text.isBlank next.typeName = true := by simpa [next?, hs] using hn
    simp only [hs, hb, ↓reduceIte] at h
    cases h
    contradiction
  · rw [hs] at h
    cases h

end

theorem exists_first_repeat {l : List String} (h : ¬ l.Nodup) :
    ∃ chain last rest, l = chain ++ last :: rest ∧ chain.Nodup ∧ last ∈ chain := by
  induction l using List.reverseRecOn with
  | nil => exact absurd List.nodup_nil h
  | append_singleton l a ih =>
    by_cases hl : l.Nodup
    · refine ⟨l, a, [], rfl, hl, ?_⟩
      by_contra ha
      exact h (List.nodup_append.mpr ⟨hl, by simp, by grind⟩)
    · obtain ⟨chain, last, rest, rfl, hchain, hlast⟩ := ih hl
      exact ⟨chain, last, rest ++ [a], by simp, hchain, hlast⟩

theorem typeNames_eq_concat {ts : List (Spec φ α × Workspace φ α)} {chain : List String}
    {last : String} (h : typeNames ts = chain ++ [last]) :
    ∃ us t, ts = us ++ [t] ∧ typeNames us = chain ∧ t.1.typeName = last := by
  obtain ⟨us, vs, rfl, hus, hvs⟩ := List.map_eq_append_iff.mp h
  obtain ⟨t, rfl, ht⟩ := List.map_eq_singleton_iff.mp hvs
  exact ⟨us, t, rfl, hus, ht⟩

section
variable [Scalar α] (s : Surroundings φ α) (anew : Resolver φ α) (scope : Scope α)
  (spec : Spec φ α) (w : Workspace φ α)

/-- How many types one after another there is room for in a scope. -/
def roomAt : Nat := s.settings.maxDepth - scope.depth

/-- The specs that are expanded in turn in a scope, at most so many; one of blank type never is. -/
def expanded (n : Nat) : List (Spec φ α × Workspace φ α) :=
  if Text.isBlank spec.typeName then []
  else turns (stepAt s anew scope.depth scope.container) n spec w

def namesMet (n : Nat) : List String := typeNames (expanded s anew scope spec w n)

/-- Of the names met, `last` is the first that comes back, and there is room for those before. -/
structure ComesBack (chain : List String) (last : String) : Prop where
  names_eq : namesMet s anew scope spec w (chain.length + 1) = chain ++ [last]
  inRoom : chain.length ≤ roomAt s scope
  nodup : chain.Nodup
  back : last ∈ chain

/-- The names met differ for as long as there is room, and `last` is met after that. -/
structure Overruns (chain : List String) (last : String) : Prop where
  names_eq : namesMet s anew scope spec w (roomAt s scope + 1) = chain ++ [last]
  fills : chain.length = roomAt s scope
  nodup : (chain ++ [last]).Nodup

variable {s anew scope spec w}

theorem expanded_of_not_blank (h : Text.isBlank spec.typeName = false) (n : Nat) :
    expanded s anew scope spec w n =
      turns (stepAt s anew scope.depth scope.container) n spec w := by
  rw [expanded, if_neg (by simp [h])]

/-- Where a name is met, those before it were met by expansions of a spec that is not blank. -/
theorem turns_of_namesMet {n : Nat} {chain : List String} {last : String}
    (h : namesMet s anew scope spec w n = chain ++ [last]) :
    Text.isBlank spec.typeName = false ∧
      ∃ ts t, turns (stepAt s anew scope.depth scope.container) n spec w = ts ++ [t] ∧
        typeNames ts = chain ∧ t.1.typeName = last := by
  cases hb : Text.isBlank spec.typeName with
  | true => simp [namesMet, expanded, hb, typeNames] at h
  | false =>
    rw [namesMet, expanded_of_not_blank hb] at h
    exact ⟨rfl, typeNames_eq_concat h⟩

theorem nested_eq_error {e : ResolveError α} {w' : Workspace φ α}
    (h : Text.isBlank spec.typeName = false) :
    nested s anew scope.depth (.spec spec) scope.container w = some (.error e, w') ↔
      loop s anew scope.depth scope.container spec w = some (.error e, w') := by
  rw [nested_spec s anew scope.depth scope.container h, bind_run_eq_error]
  refine ⟨fun h => h.resolve_right ?_, Or.inl⟩
  rintro ⟨r, w'', -, h⟩
  cases h

theorem nested_of_blank (h : Text.isBlank spec.typeName = true) :
    nested s anew scope.depth (.spec spec) scope.container w =
      some (.error (.specShape "spec is missing a 'type' string"), w) := by
  unfold nested
  cases s.settings.maxDepth - scope.depth with
  | zero => rw [within, resolve_of_blank h]; rfl
  | succ room => rw [within, resolve_of_blank h]; rfl

theorem nested_of_comesBack {chain : List String} {last : String}
    (h : ComesBack s anew scope spec w chain last) :
    ∃ w', nested s anew scope.depth (.spec spec) scope.container w =
      some (.error (.infiniteLoop (chain ++ [last])), w') := by
  obtain ⟨hb, ts, t, hturns, rfl, rfl⟩ := turns_of_namesMet h.names_eq
  have hlength : (typeNames ts).length = ts.length := List.length_map _
  rw [hlength] at hturns
  refine ⟨t.2, (nested_eq_error hb).mpr ?_⟩
  exact follow_of_repeat hturns (hlength ▸ h.inRoom) h.nodup h.back

theorem nested_of_overruns {chain : List String} {last : String}
    (h : Overruns s anew scope spec w chain last) :
    ∃ w', nested s anew scope.depth (.spec spec) scope.container w =
      some (.error (.depthExceeded last s.settings.maxDepth), w') := by
  obtain ⟨hb, ts, t, hturns, rfl, rfl⟩ := turns_of_namesMet h.names_eq
  have hlength : ts.length = roomAt s scope := (List.length_map _).symm.trans h.fills
  refine ⟨t.2, (nested_eq_error hb).mpr ?_⟩
  rw [← hlength] at hturns
  have hnew : (typeNames (ts ++ [t])).Nodup := by
    rw [typeNames_append]
    exact h.nodup
  rw [loop, ← roomAt, ← hlength]
  exact follow_of_overrun hturns hnew

/-- Names that neither come back nor overrun all differ, and stop while there is room. -/
theorem turns_of_neither (hb : Text.isBlank spec.typeName = false)
    (hback : ∀ chain last, ¬ ComesBack s anew scope spec w chain last)
    (hover : ∀ chain last, ¬ Overruns s anew scope spec w chain last) :
    ∃ ts t,
      turns (stepAt s anew scope.depth scope.container) (roomAt s scope + 1) spec w = ts ++ [t] ∧
      (typeNames (ts ++ [t])).Nodup ∧ ts.length < roomAt s scope := by
  generalize hroom : roomAt s scope = room
  have hcount : (turns (stepAt s anew scope.depth scope.container) (room + 1) spec w).length ≤
      room + 1 := length_turns _ _ _
  obtain hnil | ⟨ts, t, hts⟩ := List.eq_nil_or_concat
    (turns (stepAt s anew scope.depth scope.container) (room + 1) spec w)
  · simp [turns] at hnil
  rw [List.concat_eq_append] at hts
  rw [hts, List.length_append, List.length_singleton] at hcount
  have hnames (n : Nat) (hn : n ≤ room + 1) :
      namesMet s anew scope spec w n = (typeNames (ts ++ [t])).take n := by
    rw [namesMet, expanded_of_not_blank hb, ← take_turns hn, hts]
    exact List.map_take
  have hnodup : (typeNames (ts ++ [t])).Nodup := by
    -- else the first name that comes back does so while there is room
    by_contra h
    obtain ⟨chain, last, rest, heq, hchain, hlast⟩ := exists_first_repeat h
    have hshort : ts.length + 1 = chain.length + (rest.length + 1) := by
      simpa [typeNames] using congrArg List.length heq
    refine hback chain last ⟨?_, by omega, hchain, hlast⟩
    rw [hnames _ (by omega), heq, List.append_cons]
    exact List.take_left' (by simp)
  refine ⟨ts, t, hts, hnodup, Nat.lt_of_le_of_ne (Nat.le_of_succ_le_succ hcount) fun hfull => ?_⟩
  -- with the room used up by `ts`, the name of `t` is the one too many
  have hall : (typeNames (ts ++ [t])).length ≤ room + 1 := by simp [typeNames, hfull]
  rw [typeNames_append] at hnodup
  refine hover (typeNames ts) t.1.typeName ⟨?_, by simp [typeNames, hfull, hroom], hnodup⟩
  rw [hroom, hnames _ (Nat.le_refl _), List.take_of_length_le hall, typeNames_append]
  rfl

/-- Otherwise the guard raises nothing: such an error is the failure of an expansion. -/
theorem expansion_of_neither
    (hback : ∀ chain last, ¬ ComesBack s anew scope spec w chain last)
    (hover : ∀ chain last, ¬ Overruns s anew scope spec w chain last)
    {e : ResolveError α} {w' : Workspace φ α}
    (h : nested s anew scope.depth (.spec spec) scope.container w = some (.error e, w'))
    (hguard : e.category = .recursionGuard) :
    ∃ t ∈ expanded s anew scope spec w (roomAt s scope),
      stepAt s anew scope.depth scope.container t.1 t.2 = some (.error e, w') := by
  cases hb : Text.isBlank spec.typeName with
  | true =>
    rw [nested_of_blank hb] at h
    cases h
    contradiction
  | false =>
    obtain ⟨ts, t, hturns, hnew, hroom⟩ := turns_of_neither hb hback hover
    -- the loop gets to `t` with room left, and what it raises there can only be passed on
    have hstarts (n : Nat) (h : ts.length < n) (hn : n ≤ roomAt s scope + 1) :
        turns (stepAt s anew scope.depth scope.container) n spec w = ts ++ [t] := by
      rw [← take_turns hn, hturns]
      exact List.take_of_length_le (by simpa using Nat.succ_le_of_lt h)
    obtain ⟨hts, -, hne⟩ := List.nodup_append.mp (typeNames_append ts [t] ▸ hnew)
    have hnew' : ([] ++ typeNames ts).Nodup := hts
    have hlast : t.1.typeName ∉ typeNames ts := fun hm => hne _ hm _ (by simp [typeNames]) rfl
    have hstop := next?_of_turns hturns (Nat.succ_lt_succ hroom)
    have hloop := (nested_eq_error hb).mp h
    obtain ⟨outer', halong⟩ := follow_along (hstarts _ (Nat.lt_succ_self _) (by omega))
      (Nat.le_of_lt hroom) hnew'
    obtain ⟨left, hleft⟩ : ∃ left, roomAt s scope - ts.length = left + 1 :=
      ⟨roomAt s scope - ts.length - 1, by omega⟩
    rw [loop, ← roomAt, halong, List.nil_append, hleft] at hloop
    refine ⟨t, ?_, follow_of_last_guard hlast hstop hloop hguard⟩
    rw [expanded_of_not_blank hb, hstarts _ hroom (Nat.le_succ _)]
    exact List.mem_append_right _ (List.mem_singleton_self t)

end

variable [Scalar α]

/-- The guard is exact. In every scope, be it the engine's own or one of what nests in it: where the
first name that comes back is met with room left for those before it, resolving fails with the loop
of all names met up to it; where more names differ than there is room for, it fails at the first
that has none; and otherwise such a failure is that of an expansion. -/
theorem loop_guard_exact (s : Surroundings φ α) :
    (∃ anew, Engine.resolve s = nested s anew 0) ∧
      ∀ (anew : Resolver φ α) (scope : Scope α) (spec : Spec φ α) (w : Workspace φ α),
        (∀ chain last, ComesBack s anew scope spec w chain last →
          ∃ w', nested s anew scope.depth (.spec spec) scope.container w =
            some (.error (.infiniteLoop (chain ++ [last])), w')) ∧
        (∀ chain last, Overruns s anew scope spec w chain last →
          ∃ w', nested s anew scope.depth (.spec spec) scope.container w =
            some (.error (.depthExceeded last s.settings.maxDepth), w')) ∧
        ((∀ chain last, ¬ ComesBack s anew scope spec w chain last) →
          (∀ chain last, ¬ Overruns s anew scope spec w chain last) →
          ∀ e w', nested s anew scope.depth (.spec spec) scope.container w = some (.error e, w') →
            e.category = .recursionGuard →
            ∃ t ∈ expanded s anew scope spec w (roomAt s scope),
              stepAt s anew scope.depth scope.container t.1 t.2 = some (.error e, w')) := by
  refine ⟨⟨_, engine_eq s⟩, fun anew scope spec w => ⟨?_, ?_, ?_⟩⟩
  · intro chain last h
    exact nested_of_comesBack h
  · intro chain last h
    exact nested_of_overruns h
  · intro hback hover e w' h hguard
    exact expansion_of_neither hback hover h hguard

def relay (maxDepth : Nat) : Surroundings String Exact where
  settings := ⟨maxDepth, (.fin 800, .fin 400), ⟨100, .fin (1 / 1000000), true⟩⟩
  backend := fun _ _ => .ok []
  meaning :=
    { compute := fun _ _ => .ok .null
      test := fun _ _ => true
      check := fun _ _ => .ok ()
      rules := fun _ _ _ => []
      implement := fun code props _ c =>
        if c.typeName = "shell" then
          .child (.spec ⟨code, props⟩) none fun r => .finish (r.map .resolved)
        else .finish (.ok (.spec ⟨code, props⟩)) }

def relayed : Workspace String Exact :=
  ⟨[("ping", ⟨"ping", [], .host "pong", none, [], none⟩),
    ("pong", ⟨"pong", [], .host "ping", none, [], none⟩),
    ("shell", ⟨"shell", [], .host "ping", none, [], none⟩)], #[], 0⟩

/-- The same two types come back where there is room for both, overrun where there is none for the
second, and in a type that nests them the failure is theirs. -/
theorem relay_guard :
    (∃ w', nested (relay 2) (fun _ _ => endless) 0 (.spec (.create "ping")) none relayed =
      some (.error (.infiniteLoop ["ping", "pong", "ping"]), w')) ∧
    (∃ w', nested (relay 1) (fun _ _ => endless) 0 (.spec (.create "ping")) none relayed =
      some (.error (.depthExceeded "pong" 1), w')) ∧
    ∃ t ∈ expanded (relay 4) (fun _ _ => endless) ⟨0, none⟩ (.create "shell") relayed 4,
      stepAt (relay 4) (fun _ _ => endless) 0 none t.1 t.2 =
        some (.error (.infiniteLoop ["ping", "pong", "ping"]), relayed) := by
  refine ⟨?_, ?_, ?_⟩
  · exact ((loop_guard_exact (relay 2)).2 _ ⟨0, none⟩ (.create "ping") relayed).1
      ["ping", "pong"] "ping" ⟨rfl, by decide, by decide, by decide⟩
  · exact ((loop_guard_exact (relay 1)).2 _ ⟨0, none⟩ (.create "ping") relayed).2.1
      ["ping"] "pong" ⟨rfl, by decide, by decide⟩
  · refine ((loop_guard_exact (relay 4)).2 _ ⟨0, none⟩ (.create "shell") relayed).2.2
      ?_ ?_ _ relayed rfl rfl
    · rintro (_ | ⟨name, chain⟩) last h
      · exact absurd h.back List.not_mem_nil
      · have hlength : 1 = (name :: chain ++ [last]).length := congrArg List.length h.names_eq
        simp at hlength
    · intro chain last h
      have hlength : 1 = (chain ++ [last]).length := congrArg List.length h.names_eq
      have hfills : chain.length = 4 := h.fills
      simp [hfills] at hlength

end Scene.Resolution
