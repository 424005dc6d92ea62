import Scene.Toml

/-! Tables under construction. A table is opened by a header, implied by a longer header, or made by
a dotted key; which of these it was decides what may be added to it later. -/
namespace Scene.Toml

inductive Origin where
  | header
  | implied
  | dotted
  deriving DecidableEq, Repr

inductive Node where
  | value (v : Toml)
  | table (origin : Origin) (entries : List (String × Node))
  /-- Tables of one name, of which the last is still open. -/
  | tables (earlier : List (List (String × Node))) (last : List (String × Node))

abbrev Entries := List (String × Node)

mutual

def Node.close : Node → Toml
  | .value v => v
  | .table _ entries => .table (closeEntries entries)
  | .tables earlier last => .array (closeTables earlier ++ [.table (closeEntries last)])

def closeEntries : List (String × Node) → List (String × Toml)
  | [] => []
  | (k, n) :: es => (k, n.close) :: closeEntries es

def closeTables : List (List (String × Node)) → List Toml
  | [] => []
  | t :: ts => .table (closeEntries t) :: closeTables ts

end

/-- Changes the table at the end of a path; tables on the way that do not exist yet are made. A
dotted key leads through no table that was opened by a header, and no path leads through a value. -/
def within? (made : Origin) (change : Origin → Entries → Option Entries) :
    List String → Origin → Entries → Option Entries
  | [], origin, entries => change origin entries
  | key :: path, _, entries =>
    match Dict.get? entries key with
    | none => do
      let inner ← within? made change path made []
      some (Dict.insert entries key (.table made inner))
    | some (.table origin inner) =>
      if made = .dotted ∧ origin = .header then none
      else do
        let inner ← within? made change path origin inner
        some (Dict.insert entries key (.table origin inner))
    | some (.tables earlier last) => do
      let last ← within? made change path .header last
      some (Dict.insert entries key (.tables earlier last))
    | some (.value _) => none

def splitLast? : List String → Option (List String × String)
  | [] => none
  | [name] => some ([], name)
  | k :: ks => (splitLast? ks).map fun (path, name) => (k :: path, name)

/-- Adds a value under a dotted key. A dotted key adds only to tables that dotted keys made. -/
def put? (keys : List String) (v : Toml) (entries : Entries) : Option Entries := do
  let (path, name) ← splitLast? keys
  within? .dotted (fun origin es =>
    if path ≠ [] ∧ origin ≠ .dotted then none
    else if Dict.contains es name then none
    else some (Dict.insert es name (.value v))) path .header entries

/-- Opens the table of a header. It must be new, or only implied so far. -/
def openTable? (keys : List String) (root : Entries) : Option Entries := do
  let (path, name) ← splitLast? keys
  within? .implied (fun _ es =>
    match Dict.get? es name with
    | none => some (Dict.insert es name (.table .header []))
    | some (.table .implied inner) => some (Dict.insert es name (.table .header inner))
    | some _ => none) path .header root

def openItem? (keys : List String) (root : Entries) : Option Entries := do
  let (path, name) ← splitLast? keys
  within? .implied (fun _ es =>
    match Dict.get? es name with
    | none => some (Dict.insert es name (.tables [] []))
    | some (.tables earlier last) => some (Dict.insert es name (.tables (earlier ++ [last]) []))
    | some _ => none) path .header root

inductive Statement where
  | table (keys : List String)
  | item (keys : List String)
  | pair (keys : List String) (v : Toml)

/-- The tables so far, and the path of the header that pairs are added under. -/
structure Assembly where
  root : Entries
  current : List String

def Assembly.add? (a : Assembly) : Statement → Option Assembly
  | .table keys => (openTable? keys a.root).map (⟨·, keys⟩)
  | .item keys => (openItem? keys a.root).map (⟨·, keys⟩)
  | .pair keys v =>
    (within? .implied (fun _ es => put? keys v es) a.current .header a.root).map (⟨·, a.current⟩)

def assemble? (statements : List Statement) : Option (List (String × Toml)) :=
  (statements.foldlM Assembly.add? ⟨[], []⟩).map fun a => closeEntries a.root

def inlineTable? (pairs : List (List String × Toml)) : Option Toml :=
  (pairs.foldlM (fun es p => put? p.1 p.2 es) []).map fun es => .table (closeEntries es)

end Scene.Toml
