import UiWorkspace.Class.Definition

/-! Walks along the parents of a class. A class is visited once, the number of steps is
limited, and no walk goes past the root class, so that a cycle ends a walk. -/
namespace UiWorkspace.Hierarchy

structure Limits where
  maxHops : Nat
  rootClass : String

/-- The class that declares a member with the member's position in it, and the classes
visited on the way. -/
structure Walk where
  found? : Option (ClassDefinition × Nat)
  visited : List String

variable {m : Type → Type} [Monad m] (load : String → m (Option ClassDefinition))

/-- Looks for the member in the class `name`, and if it is not there goes on with the
parent as given. -/
def findThrough (rootClass member : String) (goOn : List String → String → m Walk)
    (visited : List String) (name : String) : m Walk := do
  if visited.contains name then return ⟨none, visited⟩
  else
    let visited := visited ++ [name]
    match ← load name with
    | none => return ⟨none, visited⟩
    | some c =>
      match c.members.findIdx? fun f => f.name == member with
      | some index => return ⟨some (c, index), visited⟩
      | none =>
        match c.parent? with
        | some parent => if name == rootClass then return ⟨none, visited⟩ else goOn visited parent
        | none => return ⟨none, visited⟩

def findFrom (rootClass member : String) : (hops : Nat) → List String → String → m Walk
  | 0 => findThrough load rootClass member fun visited _ => return ⟨none, visited⟩
  | hops + 1 => findThrough load rootClass member (findFrom rootClass member hops)

/-- The nearest class from `name` upwards that declares the member. -/
def findMember (limits : Limits) (name member : String) : m Walk :=
  findFrom load limits.rootClass member limits.maxHops [] name

def ancestorsFrom (rootClass : String) : (count : Nat) → List String → String → m (List String)
  | 0, chain, _ => return chain
  | count + 1, chain, name => do
    if chain.contains name then return chain
    let chain := chain ++ [name]
    if name == rootClass then return chain
    match ← load name with
    | none => return chain
    | some c =>
      match c.parent? with
      | some parent => ancestorsFrom rootClass count chain parent
      | none => return chain

def ancestors (limits : Limits) (name : String) : m (List String) :=
  ancestorsFrom load limits.rootClass (limits.maxHops + 1) [] name

def isSubclassOf (limits : Limits) (name ancestor : String) : m Bool := do
  return (← ancestors load limits name).contains ancestor

end UiWorkspace.Hierarchy
