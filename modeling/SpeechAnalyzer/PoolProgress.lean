/-
Whether the operations on the pool come to an end. A thread that has a
connection gives it back, and a freed connection reaches a parked thread; so
all depends on there being a connection at all.

What is begun takes at most five steps more for each thread: back out of the
wait, the body, `FreeConnection`, and a notification and one vain wake-up
along with them.
-/
import SpeechAnalyzer.ConnectionPool

namespace SpeechAnalyzer

open Lib Monitor

variable {ν κ : Type}

namespace DBWrapper

/-- What goes on with an operation: all but a new call. -/
def Action.GoesOn : Action ν → Prop
  | call _ => False
  | body _ => True
  | free => True

section Steps

variable {D : Doubles ν} {columns : List Str}

end Steps

end DBWrapper

end SpeechAnalyzer
