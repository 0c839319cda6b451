/-!
Settings of an engine.
-/

set_option autoImplicit false
set_option relaxedAutoImplicit false

namespace Horn

/-- A span of time. -/
structure Duration where
  secs : Nat
  nanos : Nat
  deriving DecidableEq, Repr, Inhabited

namespace Duration

def nanosPerSec : Nat := 1000000000

def ofMillis (millis : Nat) : Duration :=
  ⟨millis / 1000, millis % 1000 * 1000000⟩

def toNanos (d : Duration) : Nat :=
  d.secs * nanosPerSec + d.nanos

end Duration

/-- How long a search may take, and up to which arity variadic built-ins reach. -/
structure Config where
  searchTimeout : Duration
  maxVariadicArity : Nat
  deriving DecidableEq, Repr

namespace Config

/-- Three seconds, and twenty arguments. -/
def standard : Config := ⟨⟨3, 0⟩, 20⟩

instance : Inhabited Config := ⟨standard⟩

def withSearchTimeout (c : Config) (timeout : Duration) : Config :=
  { c with searchTimeout := timeout }

def withMaxVariadicArity (c : Config) (arity : Nat) : Config :=
  { c with maxVariadicArity := arity }

end Config

end Horn
