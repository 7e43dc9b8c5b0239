import EntityFlow.Codec.Basic
import EntityFlow.Compile.Plan

/-! # Options as JSON -/

namespace EntityFlow.Options

def toJson (o : Options) : Json :=
  .obj [("debug_script", .bool o.debugScript), ("traceability", .bool o.traceability),
    ("indent", .nat o.indent), ("deny_errors", .bool o.denyErrors)]

/-- A value that may be left out. -/
def absentOr {α : Type} (default : α) (f : Json → Option α) : Option Json → Option α
  | some j => f j
  | none => some default

/-- An object gives options by name, an array in order; those left out keep their defaults. -/
def ofJson? (j : Json) : Option Options := do
  let (debugScript, traceability, indent, denyErrors) ← match j with
    | .obj fields =>
        let names := ["debug_script", "traceability", "indent", "deny_errors"]
        if names.all fun n => (fields.filter fun f => f.1 == n).length ≤ 1 then
          some (fields.lookup "debug_script", fields.lookup "traceability",
            fields.lookup "indent", fields.lookup "deny_errors")
        else none
    | .arr items =>
        if items.length ≤ 4 then some (items[0]?, items[1]?, items[2]?, items[3]?) else none
    | _ => none
  let base : Options := {}
  return {
    debugScript := ← absentOr base.debugScript Json.toBool? debugScript
    traceability := ← absentOr base.traceability Json.toBool? traceability
    indent := ← absentOr base.indent (Json.toNat? 0x1_0000_0000_0000_0000) indent
    denyErrors := ← absentOr base.denyErrors Json.toBool? denyErrors }

end EntityFlow.Options
