import Horn.Fact.Numbering
import Horn.Literal.Equality
import Horn.Search.Solution

/-!
What a hasher is fed of a partial solution.

A feed is a sequence of bytes and words without marks between its parts: a text ends with a byte that
is in no text, a list comes behind its length, and each kind of value has a tag. Variables go in by
their numbers, counted by first occurrence through the whole solution, and doubles by bits that equal
numbers share. Whether solutions have the same feed is what their fingerprints tell.
-/

set_option autoImplicit false
set_option relaxedAutoImplicit false

namespace Horn

/-- The bits of a double, except that both zeros have the bits of the positive one and that all NaN
have the same bits. -/
def Binary64.canonicalBits (x : Float) : UInt64 :=
  if unsignedBits x = 0 then 0
  else if isNaN x then 0x7ff8000000000000
  else x.toBits

/-- What a hasher takes at a time: a byte, or a word, which may be a tag, a count, an integer or the
bits of a double. -/
inductive Portion where
  | byte (value : UInt8)
  | word (value : Nat)
  deriving DecidableEq, Repr

/-- The portions that a hasher takes, in order. -/
abbrev Feed := List Portion

/-- A text: its bytes, and a byte that ends it. -/
def Feed.ofText (text : String) : Feed :=
  text.toUTF8.data.toList.map .byte ++ [.byte 0xff]

namespace Literal

mutual

/-- A literal: the tag of its kind and its value; a list goes in with its length. -/
def feed : Literal → Feed
  | .integer value => [.word 0, .word value.toUInt64.toNat]
  | .float value => [.word 1, .word (Binary64.canonicalBits value).toNat]
  | .text value => .word 2 :: Feed.ofText value
  | .list items => .word 3 :: .word items.length :: feedItems items

/-- The elements of a list, one behind the other. -/
def feedItems : List Literal → Feed
  | [] => []
  | item :: rest => item.feed ++ feedItems rest

end

end Literal

/-- The tag of an operator. -/
def Operator.tag : Operator → Nat
  | .lt => 0
  | .le => 1
  | .gt => 2
  | .ge => 3
  | .ne => 4
  | .type => 5

/-- The condition at a variable: a tag that says whether there is one, and the condition. -/
def Feed.ofCondition : Option Condition → Feed
  | none => [.word 0]
  | some c => .word 1 :: .word c.operator.tag :: c.operand.feed

/-- The arguments of a fact, of which the variables go in by their numbers. -/
def Feed.ofArgs (seen : Numbering) : List Atom → Feed
  | [] => []
  | .lit value :: rest => .byte 0 :: (value.feed ++ ofArgs seen rest)
  | .var v :: rest =>
    .byte 1 :: .word (seen.number v.name) :: (ofCondition v.condition ++ ofArgs (seen.meet v.name) rest)

/-- A fact, if these names were met before it. -/
def Fact.feed (seen : Numbering) (f : Fact) : Feed :=
  Feed.ofText f.functor ++ .word f.arity :: Feed.ofArgs seen f.args

namespace Search

/-- Goals, if these names were met before them: for each whether it is discharged, and its fact. -/
def feedFrom (seen : Numbering) : Solution → Feed
  | [] => []
  | g :: rest =>
    .byte (if g.resolved then 1 else 0) ::
      (g.fact.feed seen ++ feedFrom (g.fact.varNames.foldl Numbering.meet seen) rest)

/-- A partial solution. -/
def feed (solution : Solution) : Feed :=
  feedFrom [] solution

end Search

end Horn
