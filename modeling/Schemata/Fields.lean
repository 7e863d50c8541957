import Schemata.Text

/-! Fields kept in key order. `insert` replaces the entry of a present key and otherwise adds one at
its place, so a list built from `[]` by `insert` is strictly ascending and no key occurs twice. -/
namespace Schemata

/-- Entries under text keys, in ascending key order. -/
abbrev Fields (α : Type) := List (Text × α)

namespace Fields

def find? (key : Text) : Fields α → Option α
  | [] => none
  | (k, v) :: rest => if k = key then some v else find? key rest

def contains (key : Text) (fields : Fields α) : Bool := (find? key fields).isSome

def insert (key : Text) (value : α) : Fields α → Fields α
  | [] => [(key, value)]
  | (k, v) :: rest =>
    if key < k then (key, value) :: (k, v) :: rest
    else if key = k then (key, value) :: rest
    else (k, v) :: insert key value rest

def erase (key : Text) : Fields α → Fields α
  | [] => []
  | (k, v) :: rest => if k = key then rest else (k, v) :: erase key rest

def keys (fields : Fields α) : List Text := fields.map Prod.fst

/-- Entries set one after the other; the last of several with one key stays. -/
def ofList (entries : List (Text × α)) : Fields α :=
  entries.foldl (fun fields e => insert e.1 e.2 fields) []

def Ascending (fields : Fields α) : Prop := fields.Pairwise fun a b => a.1 < b.1

end Fields
end Schemata
