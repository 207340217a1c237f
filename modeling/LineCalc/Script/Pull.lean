import LineCalc.Script.Statement

/-!
# Pulling outputs from a script

A script hands over its outputs one by one, and evaluates no further than it must. The diagnostics
of a line come before the fatal one that ends it. After a fatal diagnostic there is nothing more,
until the script is told to recover: it then goes on behind the failing line.
-/

namespace LineCalc

/-- What is pulled from a script. -/
inductive Pulled where
  | output (o : Output)
  /-- A fatal diagnostic. -/
  | failure (d : Diagnostic)
  | nothing
  | breach (b : Breach)
deriving BEq, Repr

namespace Script

/-- Stops at the end of the input. -/
def finish (s : Script) : Script := { s with halted := true, finished := true }

/-- Stops at a fatal diagnostic. -/
def halt (s : Script) (d : Diagnostic) : Script :=
  { s.logged (.halted d) with halted := true, failure := some d }

/-- The next output, in at most `turns` statements. -/
def pull (standIn : Span → Number) :
    (turns : Nat) → Bindings → Script → Pulled × Bindings × Script
  | 0, bindings, s => (.breach .turns, bindings, s)
  | turns + 1, bindings, s =>
    match s.queue with
    | o :: rest => (.output o, bindings, { s with queue := rest })
    | [] =>
      match s.failure with
      | some d => (.failure d, bindings, { s with failure := none })
      | none =>
        if s.halted then (.nothing, bindings, s)
        else
          match Work.statement standIn ⟨s, bindings⟩ with
          | .ok .more w => pull standIn turns w.bindings w.script
          | .ok .finished w => pull standIn turns w.bindings w.script.finish
          | .error (.fatal d) w => pull standIn turns w.bindings (w.script.halt d)
          | .error (.breach b) w => (.breach b, w.bindings, w.script)

/-- The next output, with the bindings and the script afterwards. -/
def next (s : Script) (standIn : Span → Number) (bindings : Bindings) :
    Pulled × Bindings × Script :=
  s.pull standIn (s.size + 2) bindings

end Script

namespace Feed

/-- Goes on behind the line that failed. The result is false, and nothing is changed, if no fatal
diagnostic stopped the script. -/
def recover : Feed Bool := do
  let s ← get
  if !s.halted || s.finished then
    return false
  else
    set { s with failure := none }
    skipLine (s.size + 1)
    modify fun s => { s with halted := false }
    return true

end Feed

end LineCalc
