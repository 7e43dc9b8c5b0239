/-! # Identities of nodes, connections, containers and members -/

namespace EntityFlow

structure NodeId where
  index : Nat
deriving DecidableEq, Repr, Inhabited

structure EdgeId where
  index : Nat
deriving DecidableEq, Repr, Inhabited

structure ContainerId where
  index : Nat
deriving DecidableEq, Repr, Inhabited

structure MemberId where
  index : Nat
deriving DecidableEq, Repr, Inhabited

instance : ToString NodeId := ⟨fun id => toString id.index⟩
instance : ToString EdgeId := ⟨fun id => toString id.index⟩
instance : ToString ContainerId := ⟨fun id => toString id.index⟩
instance : ToString MemberId := ⟨fun id => toString id.index⟩

/-- A port of a node, by position. A position is a 16-bit word. -/
structure PortRef where
  node : NodeId
  port : UInt16
deriving DecidableEq, Repr, Inhabited

namespace PortRef

instance : ToString PortRef := ⟨fun r => toString r.node ++ ":" ++ toString r.port⟩

/-- By node, then by position. -/
def le (a b : PortRef) : Bool :=
  a.node.index < b.node.index || (a.node.index == b.node.index && a.port.toNat ≤ b.port.toNat)

/-- Any two ports are comparable. -/
theorem le_total (a b : PortRef) : (le a b || le b a) = true := by
  simp only [le, Bool.or_eq_true, Bool.and_eq_true, decide_eq_true_eq, beq_iff_eq]
  omega

theorem le_trans (a b c : PortRef) (hab : le a b = true) (hbc : le b c = true) : le a c = true := by
  simp only [le, Bool.or_eq_true, Bool.and_eq_true, decide_eq_true_eq, beq_iff_eq] at *
  omega

/-- The order on ports is an order, not only a preorder. -/
theorem le_antisymm {a b : PortRef} (hab : le a b = true) (hba : le b a = true) : a = b := by
  obtain ⟨⟨n⟩, p⟩ := a
  obtain ⟨⟨m⟩, q⟩ := b
  simp only [le, Bool.or_eq_true, Bool.and_eq_true, decide_eq_true_eq, beq_iff_eq] at hab hba
  have hn : n = m := by omega
  have hp : p = q := UInt16.toNat_inj.mp (by omega)
  simp [hn, hp]

/-- The least of some ports, if there are any. -/
def least? : List PortRef → Option PortRef
  | [] => none
  | r :: rest => some (rest.foldl (fun a b => if le a b then a else b) r)

/-- By the first port, then by the second. -/
def pairLe (a b : PortRef × PortRef) : Bool :=
  if a.1 = b.1 then le a.2 b.2 else le a.1 b.1

end PortRef

end EntityFlow
