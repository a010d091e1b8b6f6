/-!
Mappings as lists of entries in their order. A key occurs at most once in a mapping; `insert`,
`erase` and `insertAt` keep it so.
-/
namespace ApiTidy

/-- The entries of a mapping, in order. -/
abbrev Entries (α : Type) := List (String × α)

namespace Entries
variable {α β : Type}

def get? (entries : Entries α) (key : String) : Option α := entries.lookup key

def contains (entries : Entries α) (key : String) : Bool := entries.any (·.1 == key)

def keys (entries : Entries α) : List String := entries.map (·.1)

/-- The value under a key, which keeps its place; a new key goes to the end. -/
def insert (entries : Entries α) (key : String) (value : α) : Entries α :=
  match entries with
  | [] => [(key, value)]
  | (k, v) :: rest =>
    if k = key then (k, value) :: rest else (k, v) :: Entries.insert rest key value

/-- The other entries keep their order. -/
def erase (entries : Entries α) (key : String) : Entries α := entries.eraseP (·.1 == key)

/-- The entry of a key that is not there yet, at a position or at the end if that is nearer. -/
def insertAt (entries : Entries α) (index : Nat) (key : String) (value : α) : Entries α :=
  entries.insertIdx (min index entries.length) (key, value)

def position? (entries : Entries α) (key : String) : Option Nat :=
  entries.findIdx? (·.1 == key)

/-- The entries of a list of pairs: a repeated key keeps the first place and the last value. -/
def ofPairs (pairs : List (String × α)) : Entries α :=
  pairs.foldl (fun entries (key, value) => Entries.insert entries key value) []

/-- No key occurs twice. -/
def Distinct (entries : Entries α) : Prop := entries.keys.Nodup

end Entries
end ApiTidy
