import Horn.Text.Radix

/-!
Why an operation is refused. A refused operation changes nothing.
-/

set_option autoImplicit false
set_option relaxedAutoImplicit false

namespace Horn

/-- The causes for which an operation is refused. -/
inductive Refusal where
  | builtinPredicate (key : String)
  | reservedPredicate (functor : String)
  | clauseNotFound
  | indexOutOfBounds (index size : Nat)
  | invalidPredicateKey (key : String)
  | alreadyMemoized (key : String)
  | notMemoized (key : String)
  | invalidTableName
  deriving DecidableEq, Repr

/-- The text that tells a user the cause. -/
def Refusal.message : Refusal → String
  | .builtinPredicate key => "built-in predicate " ++ key ++ " cannot be modified"
  | .reservedPredicate functor => "predicate name " ++ functor ++ " is reserved"
  | .clauseNotFound => "clause not found"
  | .indexOutOfBounds index size =>
    "invalid clause index " ++ Radix.render 10 index ++
      " (table has " ++ Radix.render 10 size ++ " clauses)"
  | .invalidPredicateKey key => "invalid predicate key " ++ key
  | .alreadyMemoized key => "predicate " ++ key ++ " is already being memoized"
  | .notMemoized key => "predicate " ++ key ++ " was not being memoized"
  | .invalidTableName => "table name is missing or invalid"

end Horn
