import EntityFlow.Diagnostic
import EntityFlow.Graph.Basic

/-! # Rules for aspects -/

namespace EntityFlow.Check

/-- The diagnostic, if the rule is broken. -/
def require (holds : Bool) (d : Diagnostic) : List Diagnostic := if holds then [] else [d]

/-- Wrapper types an aspect variable may have, by the beginning of their name. -/
def supportedWrappers : List String :=
  ["RefRO<", "RefRW<", "EnabledRefRO<", "EnabledRefRW<", "DynamicBuffer<"]

def isSupported (t : TypeRef) : Bool :=
  t.category == .entity || t.category == .aspect ||
    supportedWrappers.any fun w => w.toList.isPrefixOf t.name.toList

def isEntityVariable : Member → Bool
  | .variable v => v.type.category == .entity
  | _ => false

/-- Problems of one member; `earlier` are the members declared before it. -/
def aspectMember (earlier : List Member) (id : MemberId) : Member → List Diagnostic
  | .variable v =>
      require v.readOnly (.of (.member id) (.aspectVariableNotReadOnly v.name)) ++
      require (isSupported v.type)
        (.of (.member id) (.unsupportedAspectVariable v.name v.type.name)) ++
      require (!(v.type.category == .entity && (earlier.filter isEntityVariable).length == 1))
        (.of (.member id) .multipleAspectEntities)
  | .property p => require (!p.isAuto) (.of (.member id) (.aspectAutoProperty p.name))
  | .function _ => []

def aspect (g : Graph) : List Diagnostic :=
  if g.settings.flavor = .aspect then
    require g.settings.modifier.isStruct (.of .graph .aspectNotStruct) ++
    require g.settings.modifier.readOnly (.of .graph .aspectNotReadOnly) ++
    require g.settings.modifier.isPartial (.of .graph .aspectNotPartial) ++
    (g.indexedMembers.flatMap fun (id, m) => aspectMember (g.members.take id.index) id m) ++
    require (g.members.any fun m => m.asVariable.isSome) (.of .graph .aspectWithoutVariables)
  else []

end EntityFlow.Check
