import EntityFlow.TypeRef

/-! # Settings of a unit -/

namespace EntityFlow

/-- What a graph is compiled to. -/
inductive Flavor where
  | unmanagedSystem
  | managedSystem
  | aspect
deriving DecidableEq, Repr, Inhabited

structure Modifier where
  isStruct : Bool := true
  readOnly : Bool := false
  isPartial : Bool := true
deriving DecidableEq, Repr, Inhabited

structure Settings where
  name : String := "NewSystem"
  namespaceName : Option String := none
  usings : List String := ["Unity.Burst", "Unity.Entities", "Unity.Transforms", "Unity.Mathematics"]
  flavor : Flavor := .unmanagedSystem
  modifier : Modifier := {}
  burstCompile : Bool := true
  requiredForUpdate : List TypeRef := []
deriving DecidableEq, Repr, Inhabited

def Flavor.isSystem : Flavor → Bool
  | .unmanagedSystem | .managedSystem => true
  | .aspect => false

end EntityFlow
