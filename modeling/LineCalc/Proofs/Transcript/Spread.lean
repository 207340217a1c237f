import LineCalc.Proofs.Reading.Spread
import LineCalc.Proofs.Transcript.Totals

/-!
# Runs of texts with more blanks

Blanks between the chunks of a text in which everything is right make no difference to what is read, and
so none to what a run does, but for the places of its diagnostics.
-/

namespace LineCalc

variable {os os' : List Output}

/-- An output without its place: a value, or a problem. -/
def Output.content : Output → Number ⊕ Problem
  | .value n => .inl n
  | .diagnostic d => .inr d.problem

theorem Output.map_content_of_like {place : Span → Span → Prop}
    (h : List.Forall₂ (Output.Like place) os os') : os'.map content = os.map content := by
  induction h with
  | nil => rfl
  | cons h _ ih =>
    cases h with
    | value n => exact congrArg (List.cons (.inl n)) ih
    | diagnostic hd => exact congrArg₂ List.cons (congrArg Sum.inr hd.problem) ih

/-- **Blanks between tokens do not matter.** If nothing in a text is wrong for the reader, blanks may be
put in front of any of its chunks and behind the last one, but not directly behind a comment: the tokens
have the same kinds, payloads and lexemes, and nothing is wrong with them. And from whatever bindings a
session runs the text, it puts out the same values and the same problems in the same order, and makes the
same assignments in the same order. -/
theorem Session.run_spread (names : NameGrammar) (keepGoing : Bool) (bindings : Bindings)
    (source : String) (gap : Nat → List Char)
    (hclean : Reading.diagnostics (Reading.ofText names source) = [])
    (hspaced : Chunk.Spaced gap (Chunk.cut names source.toList)) :
    let source' := Reading.spread names gap source
    let contents := fun source => (Reading.tokens (Reading.ofText names source)).map Token.content
    let run := fun source =>
      Session.run ⟨{ names := names, keepGoing := keepGoing }, bindings⟩ source
    let stores := fun source => (run source).1.log.filterMap Event.stored?
    contents source' = contents source ∧
    Reading.diagnostics (Reading.ofText names source') = [] ∧
    (run source').1.outputs.map Output.content = (run source).1.outputs.map Output.content ∧
    stores source' = stores source ∧
    (run source').2 = (run source).2 ∧
    (run source').1.completed = (run source).1.completed ∧
    (run source').1.breach = none ∧ (run source).1.breach = none := by
  intro source' contents run stores
  let config : Config := { names := names, keepGoing := keepGoing }
  have hread := Reading.forall₂_spread hclean hspaced
  have hstart : (Script.ofText config.names source).Like .anywhere (.ofText config.names source') :=
    .ofText hread trivial rfl rfl
  obtain ⟨os, os', c, b', t, t', -, -, hrun, hrun', hos, hlike⟩ :=
    Session.exists_run_like (fun _ _ _ => rfl) hstart bindings
  obtain ⟨hcontents, hproblems⟩ := Reading.contents_eq hread
  have hnone : Reading.diagnostics (Reading.ofText names source') = [] := by
    rw [hclean] at hproblems
    exact List.map_eq_nil_iff.mp hproblems
  have hstores : stores source' = stores source := by
    show (run source').1.log.filterMap _ = (run source).1.log.filterMap _
    rw [show run source = _ from hrun, show run source' = _ from hrun',
      Transcript.filterMap_log Event.inner_stored?, Transcript.filterMap_log Event.inner_stored?]
    exact hlike.stores
  refine ⟨hcontents, hnone, ?_, hstores, ?_⟩
  all_goals rw [show run source = _ from hrun, show run source' = _ from hrun']
  · exact Output.map_content_of_like hos
  · exact ⟨rfl, rfl, rfl, rfl⟩

/-- Numbers, names and signs side by side. Behind the comment there is no gap. -/
theorem Session.run_spread_slots :
    let source := "MEM_1=0x1F-1e5.5%%a\nsin(MEM_1)"
    let gap := fun n => if n = 7 then [] else [' ']
    let source' := Reading.spread .memorySlots gap source
    let contents :=
      fun source => (Reading.tokens (Reading.ofText .memorySlots source)).map Token.content
    let run := fun source => Session.run ⟨{ names := .memorySlots, keepGoing := true }, {}⟩ source
    let stores := fun source => (run source).1.log.filterMap Event.stored?
    Reading.diagnostics (Reading.ofText .memorySlots source) = [] ∧
    Chunk.Spaced gap (Chunk.cut .memorySlots source.toList) ∧
    source' = " MEM_1 = 0x1F - 1e5 .5 %%a\n sin ( MEM_1 ) " ∧
    contents source' = contents source ∧
    Reading.diagnostics (Reading.ofText .memorySlots source') = [] ∧
    (run source').1.outputs.map Output.content = (run source).1.outputs.map Output.content ∧
    stores source' = stores source ∧
    (run source').2 = (run source).2 ∧
    (run source').1.completed = (run source).1.completed ∧
    (run source').1.breach = none ∧ (run source).1.breach = none := by
  intro source gap
  have hclean : (Reading.diagnostics (Reading.ofText .memorySlots
      "MEM_1=0x1F-1e5.5%%a\nsin(MEM_1)")).isEmpty = true := by decide +kernel
  -- the gap behind the comment is the one that stays empty
  have hcomment : ∀ n < (Chunk.cut .memorySlots "MEM_1=0x1F-1e5.5%%a\nsin(MEM_1)".toList).length,
      (Chunk.cut .memorySlots "MEM_1=0x1F-1e5.5%%a\nsin(MEM_1)".toList)[n]?.any Chunk.isComment →
        n = 6 := by decide +kernel
  have hspread : Reading.spread .memorySlots (fun n => if n = 7 then [] else [' '])
      "MEM_1=0x1F-1e5.5%%a\nsin(MEM_1)" = " MEM_1 = 0x1F - 1e5 .5 %%a\n sin ( MEM_1 ) " := by
    decide +kernel
  have hspaced : Chunk.Spaced gap (Chunk.cut .memorySlots source.toList) := by
    refine ⟨fun n c hc => ?_, fun n chunk hn hchunk => ?_⟩
    · by_cases h : n = 7 <;> simp [gap, h] at hc
      rw [hc]
      rfl
    · obtain ⟨hlt, -⟩ := List.getElem?_eq_some_iff.mp hn
      have hany : (Chunk.cut .memorySlots source.toList)[n]?.any Chunk.isComment := by
        rw [hn]
        exact hchunk
      rw [hcomment n hlt hany]
      rfl
  have hclean := List.isEmpty_iff.mp hclean
  exact ⟨hclean, hspaced, hspread,
    Session.run_spread .memorySlots true {} source gap hclean hspaced⟩

end LineCalc
