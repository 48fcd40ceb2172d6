import ContentSdl.OrderedMap

/-! # What a run has declared and used -/

namespace ContentSdl

/-- The names declared so far, and the users of each global field definition. -/
structure Registry where
  declared : List String := []
  globals : OrderedMap (List String) := .empty
  deriving DecidableEq, Inhabited

namespace Registry

/-- Marks a name as declared, and tells whether it was not before. -/
def declare (r : Registry) (name : String) : Bool × Registry :=
  if name ∈ r.declared then (false, r) else (true, { r with declared := name :: r.declared })

/-- The users of a definition in the order of use. -/
def users? (r : Registry) (definition : String) : Option (List String) := r.globals.get? definition

def has (r : Registry) (definition : String) : Bool := (r.users? definition).isSome

/-- Adds a user of a definition. -/
def record (r : Registry) (definition user : String) : Registry :=
  { r with globals := r.globals.insert definition ((r.users? definition).getD [] ++ [user]) }

theorem users?_record (r : Registry) (definition user other : String) :
    (r.record definition user).users? other =
      if other = definition then some ((r.users? definition).getD [] ++ [user])
      else r.users? other :=
  OrderedMap.get?_insert ..

end Registry

end ContentSdl
