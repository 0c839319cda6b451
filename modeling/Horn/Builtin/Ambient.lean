import Horn.Binary64.Rounding
import Horn.Builtin.Cast
import Horn.Builtin.Comparison

/-!
What built-ins use and change outside their inputs: printed lines, the clock and chance.

All three are data, so an evaluation is a function of the inputs and the ambient.
-/

set_option autoImplicit false
set_option relaxedAutoImplicit false

namespace Horn.Builtin

/-- The surroundings of an evaluation: the lines printed, the newest first; the nanoseconds since
the start of 1970; and the state from which random numbers are drawn. -/
structure Ambient where
  printed : List String
  nanos : Nat
  seed : UInt64
  deriving Inhabited

namespace Ambient

/-- Everything printed, each line with its newline. -/
def output (ambient : Ambient) : String :=
  String.join (ambient.printed.reverse.map (· ++ "\n"))

def print (ambient : Ambient) (line : String) : Ambient :=
  { ambient with printed := line :: ambient.printed }

/-- Lets time go by. -/
def elapse (ambient : Ambient) (nanos : Nat) : Ambient :=
  { ambient with nanos := ambient.nanos + nanos }

/-- The time in whole milliseconds, which is what the clock shows. -/
def millis (ambient : Ambient) : Nat :=
  ambient.nanos / 1000000

/-- Goes on to the next random state; the step is odd, so all states come before one comes again. -/
def advance (ambient : Ambient) : Ambient :=
  { ambient with seed := ambient.seed + 0x9e3779b97f4a7c15 }

/-- Spreads every bit of a word over the whole word; different words stay different. -/
def scramble (word : UInt64) : UInt64 :=
  let word := (word ^^^ (word >>> 30)) * 0xbf58476d1ce4e5b9
  let word := (word ^^^ (word >>> 27)) * 0x94d049bb133111eb
  word ^^^ (word >>> 31)

/-- A number from zero up to but not including one, made of the upper 53 bits of the scrambled
state. -/
def draw (ambient : Ambient) : Float :=
  Binary64.nearest false (scramble ambient.seed >>> 11).toNat 0x20000000000000

end Ambient

/-- What a built-in does: it computes a value from its inputs, prints them, reads the clock, or
draws a random number. -/
inductive Action where
  | compute (op : Operation)
  | print
  | clock
  | random

/-- The line that is printed for inputs. -/
def printedLine (inputs : List Literal) : String :=
  " ".intercalate (inputs.map Literal.plain)

/-- The value of an action and the ambient after it. -/
def Action.run (action : Action) (inputs : List Literal) (ambient : Ambient) :
    Option Literal × Ambient :=
  match action with
  | .compute op => (op inputs, ambient)
  | .print => (some yes, ambient.print (printedLine inputs))
  | .clock => (countLiteral? ambient.millis, ambient)
  | .random => (some (.float ambient.advance.draw), ambient.advance)

end Horn.Builtin
