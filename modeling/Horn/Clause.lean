import Horn.Fact.Basic

/-!
Horn clauses: a head that holds where all goals of the body hold.
-/

set_option autoImplicit false
set_option relaxedAutoImplicit false

namespace Horn

/-- A clause with the number of times it is asserted. -/
structure Clause where
  head : Fact
  body : List Fact
  count : Nat
  deriving Inhabited

namespace Clause

/-- A clause asserted once. -/
def once (head : Fact) (body : List Fact) : Clause :=
  ⟨head, body, 1⟩

def key (c : Clause) : String :=
  c.head.key

/-- Head and body goals in one sequence. -/
def facts (c : Clause) : List Fact :=
  c.head :: c.body

def toText (c : Clause) : String :=
  match c.body with
  | [] => c.head.toText ++ "."
  | goals => c.head.toText ++ " :- " ++ ", ".intercalate (goals.map Fact.toText) ++ "."

end Clause

end Horn
