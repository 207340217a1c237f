/-!
# Functions

The four functions of one argument, each named by a keyword.
-/

namespace LineCalc

/-- A function of one argument. Angles are in radians and `log` is the natural logarithm. -/
inductive Func where
  | sin
  | cos
  | exp
  | log
deriving DecidableEq, Repr

namespace Func

/-- The functions in their order. -/
def all : List Func := [.sin, .cos, .exp, .log]

/-- The place of a function in the order. -/
def index : Func → Nat
  | .sin => 0
  | .cos => 1
  | .exp => 2
  | .log => 3

/-- The keyword of a function. -/
def keyword : Func → String
  | .sin => "sin"
  | .cos => "cos"
  | .exp => "exp"
  | .log => "log"

/-- The keywords in their order. -/
def keywords : List String := all.map keyword

/-- The function with the given keyword. -/
def ofKeyword? (name : String) : Option Func :=
  all.find? fun f => f.keyword == name

/-- What is said of a name that is no keyword. -/
def unknownMessage (name : String) : String := s!"unknown function: {name}"

theorem mem_all (f : Func) : f ∈ all := by cases f <;> decide

theorem ofKeyword?_eq_some_iff {name : String} {f : Func} :
    ofKeyword? name = some f ↔ f.keyword = name := by
  constructor
  · intro h
    simpa using List.find?_some h
  · rintro rfl
    cases f <;> decide

end Func

end LineCalc
