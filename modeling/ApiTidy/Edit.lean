/-!
Edits of a value. An edit may fail, and what it changed before it failed stays changed: whether a
failing edit leaves a trace is a property to be proved of it, not one that its type provides.
-/
namespace ApiTidy

/-- A change of a value of type `σ` that answers with `α` or fails with `ε`. -/
abbrev Edit (ε σ α : Type) := EStateM ε σ α

namespace Edit
variable {ε ε' σ τ α : Type}

/-- Edit a part of a value and store the part back, also after a failure. -/
def onPart (part : τ) (store : τ → σ) (edit : Edit ε τ α) : EStateM.Result ε σ α :=
  match edit part with
  | .ok answer changed => .ok answer (store changed)
  | .error fault changed => .error fault (store changed)

def mapError (f : ε → ε') (edit : Edit ε σ α) : Edit ε' σ α := fun value =>
  match edit value with
  | .ok answer changed => .ok answer changed
  | .error fault changed => .error (f fault) changed

/-- An edit that cannot fail, from the answer and the new value. -/
def ofPair (f : σ → α × σ) : Edit ε σ α := fun value =>
  let (answer, changed) := f value
  .ok answer changed

/-- Edit the value of each entry in order up to the first failure, and add up the answers. -/
def eachEntry (edit : String → Edit ε τ Nat) : Edit ε (List (String × τ)) Nat
  | [] => .ok 0 []
  | (key, value) :: rest =>
    match edit key value with
    | .error fault changed => .error fault ((key, changed) :: rest)
    | .ok count changed =>
      match eachEntry edit rest with
      | .error fault changedRest => .error fault ((key, changed) :: changedRest)
      | .ok countRest changedRest => .ok (count + countRest) ((key, changed) :: changedRest)

end Edit
end ApiTidy
