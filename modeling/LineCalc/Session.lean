import LineCalc.Script.Pull

/-!
# Sessions

A session runs texts one after the other. The bindings live as long as the session. What a text puts
out is collected in a `Transcript`.
-/

namespace LineCalc

/-- How a session runs its texts. -/
structure Config where
  /-- Which words are names. -/
  names : NameGrammar := .free
  /-- Does a run go on behind a line with a fatal diagnostic? -/
  keepGoing : Bool := false
  /-- What an operation without a value counts as while the rest of its statement is read. -/
  standIn : Span → Number := fun _ => .int 0

/-- What a run puts out. -/
structure Transcript where
  /-- The outputs in their order. -/
  outputs : List Output
  /-- Was the whole text run? A run that keeps going always completes. -/
  completed : Bool
  readTally : ReadTally
  evalTally : EvalTally
  log : List Event
  /-- A step that cannot happen, if one did. -/
  breach : Option Breach := none

namespace Output

/-- The value that is put out. -/
def value? : Output → Option Number
  | .value n => some n
  | .diagnostic _ => none

/-- The diagnostic that is put out. -/
def diagnostic? : Output → Option Diagnostic
  | .value _ => none
  | .diagnostic d => some d

end Output

/-- What has been written of a transcript. -/
structure Rendered where
  out : String := ""
  err : String := ""

/-- Writes an output on a line of its own. -/
def Rendered.write (r : Rendered) : Output → Rendered
  | .value n => { r with out := r.out ++ s!"{n.text}\n" }
  | .diagnostic d => { r with err := r.err ++ s!"error: {d.message}\n" }

namespace Transcript

/-- The values of statements. -/
def values (t : Transcript) : List Number := t.outputs.filterMap Output.value?

/-- The diagnostics. -/
def diagnostics (t : Transcript) : List Diagnostic := t.outputs.filterMap Output.diagnostic?

/-- Each text on a line of its own. -/
def lines (texts : List String) : String := String.join (texts.map (· ++ "\n"))

/-- Writes the outputs one after the other: a line for each value, and one among the errors for each
diagnostic. -/
def render (t : Transcript) : Rendered := t.outputs.foldl Rendered.write {}

/-- What is printed. -/
def stdout (t : Transcript) : String := t.render.out

/-- What is complained of. -/
def stderr (t : Transcript) : String := t.render.err

/-- The transcript of a script that has come to an end, with the outputs pulled from it. -/
def ofScript (s : Script) (outputs : Array Output) (completed : Bool) : Transcript where
  outputs := outputs.toList
  completed := completed
  readTally := s.readTally
  evalTally := s.evalTally
  log := (.summary s.readTally s.evalTally :: s.log).reverse

end Transcript

namespace Script

/-- Pulls all outputs from a script, behind those already pulled, in at most `turns` pulls. -/
def drain (config : Config) :
    (turns : Nat) → Array Output → Bindings → Script → Transcript × Bindings
  | 0, outputs, bindings, s =>
    ({ Transcript.ofScript s outputs false with breach := some .turns }, bindings)
  | turns + 1, outputs, bindings, s =>
    match s.next config.standIn bindings with
    | (.output o, bindings, s) => drain config turns (outputs.push o) bindings s
    | (.nothing, bindings, s) => (.ofScript s outputs true, bindings)
    | (.failure d, bindings, s) =>
      let outputs := outputs.push (.diagnostic d)
      if config.keepGoing then
        match Feed.recover s with
        | .ok true s => drain config turns outputs bindings s
        | .ok false s => (.ofScript s outputs true, bindings)
        | .error b s => ({ Transcript.ofScript s outputs false with breach := some b }, bindings)
      else (.ofScript s outputs false, bindings)
    | (.breach b, bindings, s) =>
      ({ Transcript.ofScript s outputs false with breach := some b }, bindings)

/-- The transcript of a script, and the bindings afterwards. Every token gives rise to at most two
outputs. -/
def run (s : Script) (config : Config) (bindings : Bindings) : Transcript × Bindings :=
  s.drain config (2 * s.size + 2) #[] bindings

end Script

/-- Bindings, and how texts are run with them. -/
structure Session where
  config : Config := {}
  bindings : Bindings := {}

/-- Runs a text. -/
def Session.run (session : Session) (source : String) : Transcript × Session :=
  let (transcript, bindings) :=
    (Script.ofText session.config.names source).run session.config session.bindings
  (transcript, { session with bindings })

end LineCalc
