import ToffoliBench.Circuit.Column

namespace ToffoliBench

structure Sequence where
  qubits : Nat
  columns : List Column := []
deriving DecidableEq, Repr, Inhabited

namespace Sequence

def push (s : Sequence) (column : Column) : Except CircuitError Sequence := do
  column.validate s.qubits
  pure { s with columns := s.columns ++ [column] }

def count (s : Sequence) (kind : GateKind) : Nat := s.columns.countP (·.kind == kind)

def cell (role : Option Role) : String := (role.map Role.tag).getD "#" ++ "\t"

def gridLine (grid : List (List (Option Role))) (q : Nat) : String :=
  String.join (grid.map fun roles => cell (roles[q]?.join)) ++ "\n"

def grid (s : Sequence) : String :=
  let roles := s.columns.map (·.roles s.qubits)
  String.join ((List.range s.qubits).map (gridLine roles))

end Sequence

end ToffoliBench
