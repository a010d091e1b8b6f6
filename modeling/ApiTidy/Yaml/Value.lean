import ApiTidy.Yaml.Meaning
import ApiTidy.Yaml.Token.Lexer
import ApiTidy.Yaml.Tree.Reader

/-!
The value of a YAML document: its tree with every alias replaced by what it stands for. An anchor is
numbered by how many names are known before it, and an alias stands for the last node of the
document with the number that its name has where the alias is.
-/
namespace ApiTidy.Yaml

/-- A scalar as it is spelled, or a collection of values, with its tag. -/
inductive Value where
  | scalar (tag : Option Tag) (style : ScalarStyle) (text : String)
  | sequence (tag : Option Tag) (items : List Value)
  | mapping (tag : Option Tag) (entries : List (Value × Value))

instance : Inhabited Value := ⟨.scalar none .plain ""⟩

namespace Tree

/-- The anchor of some properties, numbered, and the names known after it. -/
def numberAnchor (names : Entries Nat) (properties : Properties String) :
    Properties Nat × Entries Nat :=
  match properties.anchor with
  | none => (⟨none, properties.tag⟩, names)
  | some name => (⟨some names.length, properties.tag⟩, Entries.insert names name names.length)

mutual

/-- The tree with numbered anchors, and the names known after it. -/
def number (names : Entries Nat) : Tree String → Except Fault (Tree Nat × Entries Nat)
  | aliased name =>
    match Entries.get? names name with
    | some n => .ok (.aliased n, names)
    | none => .error (.unknownAnchor name)
  | scalar properties style text =>
    let (properties, names) := numberAnchor names properties
    .ok (.scalar properties style text, names)
  | sequence properties items => do
    let (properties, names) := numberAnchor names properties
    let (items, names) ← numberItems names items
    return (.sequence properties items, names)
  | mapping properties entries => do
    let (properties, names) := numberAnchor names properties
    let (entries, names) ← numberEntries names entries
    return (.mapping properties entries, names)

def numberItems (names : Entries Nat) :
    List (Tree String) → Except Fault (List (Tree Nat) × Entries Nat)
  | [] => .ok ([], names)
  | item :: rest => do
    let (item, names) ← number names item
    let (items, names) ← numberItems names rest
    return (item :: items, names)

def numberEntries (names : Entries Nat) :
    List (Tree String × Tree String) → Except Fault (List (Tree Nat × Tree Nat) × Entries Nat)
  | [] => .ok ([], names)
  | (key, value) :: rest => do
    let (key, names) ← number names key
    let (value, names) ← number names value
    let (entries, names) ← numberEntries names rest
    return ((key, value) :: entries, names)

end

/-- The node that stands for an alias, counting the aliases replaced so far. -/
def replaceAlias (targets : List (Nat × Tree Nat)) (limit : Nat) :
    Tree Nat → StateT Nat (Except Fault) (Tree Nat)
  | aliased n => do
    let count ← get
    if limit ≤ count then throw .tooManyAliases
    else
      set (count + 1)
      match targets.lookup n with
      | some target => return target
      | none => throw (.unknownAnchor (toString n))
  | node => return node

/-- Replace the aliases of a tree, in which `depth` more collections may be nested. -/
def expand (targets : List (Nat × Tree Nat)) (limit : Nat) :
    Nat → Tree Nat → StateT Nat (Except Fault) Value
  | 0, tree => do
    match ← replaceAlias targets limit tree with
    | scalar properties style text => return .scalar properties.tag style text
    | _ => throw .tooDeep
  | depth + 1, tree => do
    match ← replaceAlias targets limit tree with
    | aliased n => throw (.unknownAnchor (toString n))
    | scalar properties style text => return .scalar properties.tag style text
    | sequence properties items =>
      return .sequence properties.tag (← items.mapM (expand targets limit depth))
    | mapping properties entries =>
      return .mapping properties.tag (← entries.mapM fun (key, value) => do
        return (← expand targets limit depth key, ← expand targets limit depth value))

end Tree

def maxDepth : Nat := 128

/-- How many aliases may be replaced for each mark of the document. -/
def aliasesPerMark : Nat := 100

def Value.ofTree (tree : Tree String) : Except Fault Value := do
  let (numbered, _) ← tree.number []
  let targets := numbered.anchored.reverse
  (numbered.expand targets (aliasesPerMark * tree.size) maxDepth).run' 0

def Value.parse? (text : String) : Except Fault (Option Value) := do
  match ← readDocument (← tokens text.toList) with
  | none => return none
  | some tree => return some (← Value.ofTree tree)

end ApiTidy.Yaml
