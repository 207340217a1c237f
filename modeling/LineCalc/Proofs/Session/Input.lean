import LineCalc.Proofs.Reading.OnDemand
import LineCalc.Proofs.Sound

/-!
# How much input is left

The input that is left to a script are the characters that it has not read, and the tokens that it
has looked at and not taken; the end of the input does not count. To read a token costs a character
at least, so reading on never adds to it, and every token taken takes from it.
-/

namespace LineCalc

open Move

variable {names : NameGrammar} {source : String} {s s' : Script} {m : List Move}

/-- How many of some tokens are not the end of the input. -/
def innerTokens (toks : List Token) : Nat := toks.countP (·.kind ≠ .endOfInput)

namespace Reading

end Reading

namespace Script

/-- How much input is left: characters to be read, and tokens to be taken. -/
def input (s : Script) : Nat := (Reading.text s.unread).length + innerTokens s.lookahead

end Script

end LineCalc
