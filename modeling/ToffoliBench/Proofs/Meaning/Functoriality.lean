import ToffoliBench.Proofs.Meaning.Composition

namespace ToffoliBench.Diagram

variable {d other : Diagram}

-- Composition may stop, and what it gives when it does not is the product. Tensoring has a result
-- as soon as the scalars have a product.
theorem meaning_functorial (left : d.WellFormed) (right : other.WellFormed) :
    (∀ after, d.compose other = .ok after →
      d.outputs.length = other.inputs.length ∧ after.inputs.length = d.inputs.length ∧
        after.outputs.length = other.outputs.length ∧
        after.matrix other.outputs.length d.inputs.length =
          other.matrix other.outputs.length d.outputs.length * d.matrix d.outputs.length d.inputs.length) ∧
    ∀ scalar, d.scalar.mul other.scalar = .ok scalar → ∃ after, d.tensor other = .ok after ∧
      after.inputs.length = d.inputs.length + other.inputs.length ∧
      after.outputs.length = d.outputs.length + other.outputs.length ∧
      after.matrix (d.outputs.length + other.outputs.length) (d.inputs.length + other.inputs.length) =
        (Matrix.kronecker (d.matrix d.outputs.length d.inputs.length)
          (other.matrix other.outputs.length other.inputs.length)).reindex
            (Fin.appendEquiv d.outputs.length other.outputs.length) (Fin.appendEquiv d.inputs.length other.inputs.length) := by
  constructor
  · intro after done
    obtain ⟨lengths, inputs, outputs⟩ := compose_arity left right done
    exact ⟨lengths, inputs, outputs, compose_matrix left right done _ _⟩
  · intro scalar product
    obtain ⟨after, done, inputs, outputs⟩ := tensor_total left right product
    exact ⟨after, done, inputs, outputs, tensor_matrix left right done _ _⟩

def bentOut : Diagram where
  vertices := [(0, .boundary), (1, .boundary), (2, .boundary), (3, .boundary)]
  edges := [⟨0, 1, .hadamard⟩, ⟨2, 3, .simple⟩]
  next := 4
  inputs := [0]
  outputs := [1, 2, 3]

def bentIn : Diagram where
  vertices := [(0, .boundary), (1, .boundary), (2, .boundary), (4, .boundary)]
  edges := [⟨0, 1, .simple⟩, ⟨2, 4, .hadamard⟩]
  freed := [3]
  next := 5
  inputs := [0, 1, 2]
  outputs := [4]

theorem meaning_functorial_bent : (∃ after, bentOut.compose bentIn = .ok after ∧ after.edges = [⟨0, 7, .simple⟩] ∧
      after.matrix 1 1 = bentIn.matrix 1 3 * bentOut.matrix 3 1) ∧
    ∃ after, bentOut.tensor bentIn = .ok after ∧ after.matrix 4 4 =
      (Matrix.kronecker (bentOut.matrix 3 1) (bentIn.matrix 1 3)).reindex (Fin.appendEquiv 3 1) (Fin.appendEquiv 1 3) := by
  have formed : bentOut.WellFormed ∧ bentIn.WellFormed := by decide
  have both := meaning_functorial formed.1 formed.2
  obtain ⟨after, done, _, _, matrix⟩ := both.2 .one rfl
  exact ⟨⟨_, rfl, rfl, (both.1 _ rfl).2.2.2⟩, after, done, matrix⟩

end ToffoliBench.Diagram
