import ApiTidy.Yaml.Token

/-!
The tree of a YAML document as it is written: with the styles of scalars, with tags, and with
anchors and aliases, which are named by `ν`.
-/
namespace ApiTidy.Yaml

/-- What may stand before a node. -/
structure Properties (ν : Type) where
  anchor : Option ν
  /-- The full tag, its handle replaced by what it stands for. -/
  tag : Option Tag
  deriving DecidableEq, Repr

def Properties.none {ν : Type} : Properties ν := ⟨.none, .none⟩

/-- A node as it is written, with everything in it. -/
inductive Tree (ν : Type) where
  | aliased (name : ν)
  | scalar (properties : Properties ν) (style : ScalarStyle) (text : String)
  | sequence (properties : Properties ν) (items : List (Tree ν))
  | mapping (properties : Properties ν) (entries : List (Tree ν × Tree ν))

namespace Tree
variable {ν : Type}

/-- What stands where a node is left out. -/
def empty : Tree ν := .scalar .none .plain ""

instance : Inhabited (Tree ν) := ⟨empty⟩

def anchor? : Tree ν → Option ν
  | aliased _ => none
  | scalar properties _ _ | sequence properties _ | mapping properties _ => properties.anchor

mutual

/-- How many marks a tree consists of: one for each scalar and alias, two for each collection. -/
def size : Tree ν → Nat
  | aliased _ => 1
  | scalar _ _ _ => 1
  | sequence _ items => sizeItems items + 2
  | mapping _ entries => sizeEntries entries + 2

def sizeItems : List (Tree ν) → Nat
  | [] => 0
  | item :: rest => size item + sizeItems rest

def sizeEntries : List (Tree ν × Tree ν) → Nat
  | [] => 0
  | (key, value) :: rest => size key + size value + sizeEntries rest

end

mutual

/-- The nodes with an anchor, a collection before its parts. -/
def anchored : Tree ν → List (ν × Tree ν)
  | aliased _ => []
  | scalar properties style text =>
    (properties.anchor.map (·, scalar properties style text)).toList
  | sequence properties items =>
    (properties.anchor.map (·, sequence properties items)).toList ++ anchoredItems items
  | mapping properties entries =>
    (properties.anchor.map (·, mapping properties entries)).toList ++ anchoredEntries entries

def anchoredItems : List (Tree ν) → List (ν × Tree ν)
  | [] => []
  | item :: rest => anchored item ++ anchoredItems rest

def anchoredEntries : List (Tree ν × Tree ν) → List (ν × Tree ν)
  | [] => []
  | (key, value) :: rest => anchored key ++ anchored value ++ anchoredEntries rest

end

end Tree
end ApiTidy.Yaml
