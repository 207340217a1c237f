import LineCalc.Proofs.Reading.LineFeeds
import LineCalc.Proofs.Transcript.Totals

/-!
# Runs of texts with other line breaks

However its lines end, a text runs as it does with line feeds: the same is put out, at the same places,
and the same is bound and counted. Only the characters are fewer, by one for each pair of a carriage
return and a line feed among those that were read.
-/

namespace LineCalc

variable {os os' : List Output}

/-- What is alike at the same places is the same. -/
theorem Output.eq_of_like (h : List.Forall₂ (Output.Like Eq) os os') : os' = os := by
  induction h with
  | nil => rfl
  | cons h _ ih =>
    rw [ih]
    cases h with
    | value n => rfl
    | @diagnostic d d' h =>
      obtain ⟨problem, span⟩ := d
      obtain ⟨rfl, rfl⟩ := h
      rfl

/-- **Line endings are interchangeable.** However the lines of a text end, a session runs it as it does
with a line feed at the end of each: the outputs are the same, their places included, and so is all that
is bound and counted, but for the characters. These are more by one for each carriage return with a line
feed among the characters that were read. -/
theorem Session.run_lineFeeds (session : Session) (source : String) :
    let given := session.run source
    let plain := session.run (String.ofList (lineFeeds source.toList))
    given.1.outputs = plain.1.outputs ∧ given.1.completed = plain.1.completed ∧
    given.1.breach = none ∧ plain.1.breach = none ∧
    given.2 = plain.2 ∧ given.1.evalTally = plain.1.evalTally ∧
    given.1.readTally = { plain.1.readTally with
      chars := plain.1.readTally.chars +
        pairedBreaks (source.toList.take given.1.readTally.chars) } := by
  obtain ⟨config, b⟩ := session
  have hstart : (Script.ofText config.names source).Like .lineFed
      (.ofText config.names (String.ofList (lineFeeds source.toList))) :=
    .ofText (Reading.lineFed_ofText config.names source) rfl rfl trivial
  obtain ⟨os, os', c, b', t, t', hruns, hruns', hrun, hrun', hos, hlike⟩ :=
    Session.exists_run_like (fun p p' hp => congrArg config.standIn (Eq.symm hp)) hstart b
  obtain rfl := Output.eq_of_like hos
  obtain ⟨read, hread, htally, htext⟩ := hruns.exists_read
  obtain ⟨read', hread', htally', -⟩ := hruns'.exists_read
  have hchars : t.readTally.chars = t'.readTally.chars + pairedBreaks (Reading.text read) := by
    rw [htally, htally']
    show (Reading.text read).length = (Reading.text read').length + _
    rw [Reading.text_of_lineFed hread hread' hlike.unread, length_lineFeeds]
  have heval : t'.evalTally = t.evalTally := Eq.symm hlike.evalTally
  have htally : t'.readTally = { t.readTally with chars := t'.readTally.chars } := hlike.readTally
  rw [hrun, hrun']
  refine ⟨rfl, rfl, rfl, rfl, rfl, heval.symm, ?_⟩
  show t.readTally = { t'.readTally with
    chars := t'.readTally.chars + pairedBreaks (source.toList.take t.readTally.chars) }
  rw [← htext, ← hchars, htally]

end LineCalc
