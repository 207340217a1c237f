import LineCalc.Proofs.Requests.Contract
import LineCalc.Proofs.Requests.FatalLines
import LineCalc.Proofs.Session.Input

/-!
# Every run comes to an end

A run has two loops: one that pulls outputs, and inside it one that evaluates statements until there
is an output. Every turn of the inner loop spends some of the input, unless it is the last one of the
text or fails; and a script that failed spends some when it recovers. Every turn of the outer loop
hands over something that waits.
-/

namespace LineCalc

open Grammar Move Script

variable {names : NameGrammar} {source : String} {standIn : Span → Number} {b b' : Bindings}
variable {s t u : Script} {turns : Nat}

/-! ### Scripts that come out of a text -/

/-- Whatever is asked of the script of a text, it stands in a row of the text. -/
theorem Script.Reachable.standing (h : Reachable (.ofText names source) s) :
    s.Standing (Reading.ofText names source) := by
  induction h with
  | start => exact .ofText names source
  | next h standIn b ih =>
    have hs := h.sound (sound_ofText names source)
    obtain ⟨b', t, hr, -, hn⟩ := exists_rounds hs standIn b
    rw [hn]
    exact (ih.rounds hs hr).handOver
  | @recover s s' r h hr ih =>
    have hs := h.sound (sound_ofText names source)
    have ha : Dialogue.answer ⟨s, {}⟩ .recover = (.recovered r, ⟨s', {}⟩) := by
      rw [Dialogue.answer, hr]
    have hst : (Dialogue.answer ⟨s, {}⟩ .recover).2.script.Standing _ :=
      Dialogue.standing_answer hs ih .recover
    rwa [ha] at hst

end LineCalc
