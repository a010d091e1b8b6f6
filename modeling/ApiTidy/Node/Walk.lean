import ApiTidy.Node.Basic

/-! Visiting the mappings of a tree, parents before children, in document order. -/
namespace ApiTidy.Node
variable {σ : Type}

/-- Change a list from its front to its end, carrying a state. -/
def carry {α : Type} (step : α → σ → α × σ) : List α → σ → List α × σ
  | [], state => ([], state)
  | item :: rest, state =>
    let (changed, state) := step item state
    let (changedRest, state) := carry step rest state
    (changed :: changedRest, state)

/-- Visit the mappings of a tree down to a depth, also those that a visit puts into a mapping. -/
def walkDown (visit : Entries Node → σ → Entries Node × σ) : Nat → Node → σ → Node × σ
  | _, .scalar value, state => (.scalar value, state)
  | 0, node, state => (node, state)
  | depth + 1, .sequence items, state =>
    let (changed, state) := carry (walkDown visit depth) items state
    (.sequence changed, state)
  | depth + 1, .mapping entries, state =>
    let (entries, state) := visit entries state
    let (changed, state) :=
      carry (fun (key, value) state =>
        let (changed, state) := walkDown visit depth value state
        ((key, changed), state)) entries state
    (.mapping changed, state)

/-- Visit all mappings of a tree, which the visits do not make deeper. -/
def walkMappings (visit : Entries Node → σ → Entries Node × σ) (node : Node) (state : σ) :
    Node × σ :=
  walkDown visit node.depth node state

end ApiTidy.Node
