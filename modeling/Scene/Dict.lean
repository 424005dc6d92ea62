/-! Finite maps with text keys, kept as a list of entries in key order. -/
namespace Scene

/-- Entries in rising key order; see `Dict.Sorted`. -/
abbrev Dict (β : Type) := List (String × β)

namespace Dict
variable {β γ : Type}

def empty : Dict β := []

def get? : Dict β → String → Option β
  | [], _ => none
  | (k, v) :: rest, key => if k = key then some v else get? rest key

def contains (d : Dict β) (key : String) : Bool := (get? d key).isSome

def insert : Dict β → String → β → Dict β
  | [], key, value => [(key, value)]
  | (k, v) :: rest, key, value =>
    if key < k then (key, value) :: (k, v) :: rest
    else if key = k then (key, value) :: rest
    else (k, v) :: insert rest key value

def erase (d : Dict β) (key : String) : Dict β := d.filter fun e => e.1 ≠ key

def keys (d : Dict β) : List String := d.map Prod.fst
def values (d : Dict β) : List β := d.map Prod.snd

/-- Of several entries with one key the last counts. -/
def ofList (entries : List (String × β)) : Dict β :=
  entries.foldl (fun d e => insert d e.1 e.2) empty

def overlay (base top : Dict β) : Dict β :=
  top.foldl (fun d e => insert d e.1 e.2) base

def complete (base extra : Dict β) : Dict β :=
  extra.foldl (fun d e => if contains d e.1 then d else insert d e.1 e.2) base

def mapValues (f : β → γ) (d : Dict β) : Dict γ := d.map fun e => (e.1, f e.2)

/-- What every map of this library satisfies: keys rise, so none stands twice. -/
def Sorted (d : Dict β) : Prop := d.Pairwise fun a b => a.1 < b.1

@[simp] theorem get?_nil (key : String) : get? ([] : Dict β) key = none := rfl

theorem get?_insert_self (d : Dict β) (key : String) (value : β) :
    get? (insert d key value) key = some value := by
  induction d with
  | nil => simp [insert, get?]
  | cons e rest ih =>
    simp only [insert]
    split
    · simp [get?]
    · split
      · simp [get?]
      · next h => simp [get?, Ne.symm h, ih]

theorem get?_insert_of_ne (d : Dict β) {key other : String} (value : β) (h : other ≠ key) :
    get? (insert d key value) other = get? d other := by
  induction d with
  | nil => simp [insert, get?, Ne.symm h]
  | cons e rest ih =>
    simp only [insert]
    split
    · simp [get?, Ne.symm h]
    · split
      · next hk => subst hk; simp [get?, Ne.symm h]
      · simp [get?, ih]

theorem get?_foldl_insert_of_not_mem (entries : List (String × β)) (d : Dict β) {key : String}
    (h : key ∉ entries.map (·.1)) :
    get? (entries.foldl (fun d e => insert d e.1 e.2) d) key = get? d key := by
  induction entries generalizing d with
  | nil => rfl
  | cons e rest ih =>
    have hparts : key ≠ e.1 ∧ key ∉ rest.map (·.1) := by simpa using h
    rw [List.foldl_cons, ih _ hparts.2, get?_insert_of_ne d e.2 hparts.1]

theorem get?_foldl_insert_of_mem (entries : List (String × β)) (d : Dict β)
    (hn : (entries.map (·.1)).Nodup) {e : String × β} (he : e ∈ entries) :
    get? (entries.foldl (fun d e => insert d e.1 e.2) d) e.1 = some e.2 := by
  induction entries generalizing d with
  | nil => simp at he
  | cons f rest ih =>
    have hparts : f.1 ∉ rest.map (·.1) ∧ (rest.map (·.1)).Nodup := List.nodup_cons.mp hn
    rcases List.mem_cons.mp he with rfl | hrest
    · rw [List.foldl_cons, get?_foldl_insert_of_not_mem rest _ hparts.1, get?_insert_self]
    · exact ih _ hparts.2 hrest

/-- Where keys differ, every entry is found. -/
theorem get?_ofList_of_mem {entries : List (String × β)} (hn : (entries.map (·.1)).Nodup)
    {e : String × β} (he : e ∈ entries) : get? (ofList entries) e.1 = some e.2 :=
  get?_foldl_insert_of_mem entries empty hn he

end Dict
end Scene
