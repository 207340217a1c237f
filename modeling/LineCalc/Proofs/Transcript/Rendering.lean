import LineCalc.Proofs.Printing.OneLine
import LineCalc.Proofs.Reading.Words
import LineCalc.Proofs.Transcript.Origins

/-!
# What is printed, line by line

Each output is printed on a line of its own, so that the lines tell the outputs apart. For this no
text of an output may break the line. Diagnostics quote the source: a lexeme other than a line break
has no line break in it, and a line break is never quoted.
-/

namespace LineCalc

open Grammar Text

variable {names : NameGrammar} {source : String}

/-! ### Lexemes on one line -/

namespace Chunk

variable {chunk : Chunk}

/-- A lexeme of a text stays on one line, unless it is a line break. -/
theorem breaksNoLine_of_mem_cut {rule : Rule} {lexeme : List Char}
    (hc : chunk ∈ cut names source.toList) (hs : chunk.shape = .matched rule lexeme)
    (hr : rule ≠ .newLine) : BreaksNoLine lexeme := by
  have hmem : chunk ∈ (Reading.ofText names source).flatMap Reading.chunks := by
    rw [Reading.ofText, Reading.ofChunks, Reading.flatMap_chunks_readFrom]
    exact hc
  have hne : ∀ w, chunk.shape ≠ .matched .newLine w := by
    intro w hw
    rw [hs] at hw
    exact hr (Shape.matched.inj hw).1
  intro c hc
  have hinside := Reading.inside_of_mem_chunks hmem hne c (by rwa [chars, hs])
  constructor <;> rintro rfl <;> cases hinside

theorem oneLine_of_item? {t : Token} (hc : chunk ∈ cut names source.toList)
    (h : chunk.item? = some (.ok t)) : t.OneLine := by
  obtain ⟨shape, cursor⟩ := chunk
  cases shape with
  | illegal c => cases h
  | matched rule lexeme =>
    constructor
    · intro hk
      obtain ⟨⟨kind, payload⟩, hm, ht⟩ := Option.map_eq_some_iff.mp h
      cases payload with
      | none => cases ht
      | some payload =>
        obtain rfl := Except.ok.inj ht
        rw [String.toList_ofList]
        refine breaksNoLine_of_mem_cut hc rfl ?_
        rintro rfl
        cases hm
        exact hk rfl
    · intro hk
      obtain ⟨-, hlexeme, hpayload⟩ := ident_of_item? h hk
      rw [hlexeme, hpayload]

theorem quotesOneLine_of_item? {d : Diagnostic} (hc : chunk ∈ cut names source.toList)
    (h : chunk.item? = some (.error d)) : d.problem.QuotesOneLine := by
  obtain ⟨shape, cursor⟩ := chunk
  cases shape with
  | illegal c =>
    obtain rfl := Except.error.inj (Option.some.inj h)
    trivial
  | matched rule lexeme =>
    obtain ⟨⟨kind, payload⟩, hm, hd⟩ := Option.map_eq_some_iff.mp h
    cases payload with
    | some payload => cases hd
    | none =>
      obtain rfl := Except.error.inj hd
      show BreaksNoLine (String.ofList lexeme).toList
      rw [String.toList_ofList]
      refine breaksNoLine_of_mem_cut hc rfl ?_
      rintro rfl
      cases hm

end Chunk

namespace Reading

theorem oneLine_of_mem_tokens {t : Token} (h : t ∈ tokens (ofText names source)) : t.OneLine := by
  obtain ⟨rs, taken, place, hrs, hitems⟩ := exists_of_readFrom {} [] (Chunk.cut names source.toList)
  obtain ⟨r, hr, hi⟩ := mem_tokens.mp h
  rw [ofText, ofChunks, hrs] at hr
  rcases List.mem_append.mp hr with hr | hr
  · obtain ⟨chunk, hc, hitem⟩ := hitems r hr
    exact Chunk.oneLine_of_item? hc (hi ▸ hitem)
  · obtain rfl := List.mem_singleton.mp hr
    obtain rfl := Except.ok.inj hi
    exact ⟨fun _ c hc => absurd hc List.not_mem_nil, fun hk => by cases hk⟩

theorem quotesOneLine_of_mem_diagnostics {d : Diagnostic}
    (h : d ∈ diagnostics (ofText names source)) : d.problem.QuotesOneLine := by
  obtain ⟨rs, taken, place, hrs, hitems⟩ := exists_of_readFrom {} [] (Chunk.cut names source.toList)
  obtain ⟨r, hr, hi⟩ := mem_diagnostics.mp h
  rw [ofText, ofChunks, hrs] at hr
  rcases List.mem_append.mp hr with hr | hr
  · obtain ⟨chunk, hc, hitem⟩ := hitems r hr
    exact Chunk.quotesOneLine_of_item? hc (hi ▸ hitem)
  · obtain rfl := List.mem_singleton.mp hr
    cases hi

end Reading

/-! ### Diagnostics on one line -/

/-- Whatever comes of a text quotes nothing that breaks a line. -/
theorem Script.Origin.quotesOneLine {d : Diagnostic} (h : (Script.ofText names source).Origin d) :
    d.problem.QuotesOneLine := by
  have hone : ∀ t ∈ (Script.ofText names source).ahead, t.OneLine :=
    fun t ht => Reading.oneLine_of_mem_tokens ht
  cases h with
  | read h => exact Reading.quotesOneLine_of_mem_diagnostics h
  | name h =>
    obtain ⟨m, hm, rfl⟩ := h
    have hm := hone m.token hm
    have hname : m.name = m.token.lexeme :=
      Payload.ident.inj (m.payload.symm.trans (hm.name m.isIdent))
    show BreaksNoLine m.name.toList
    rw [hname]
    exact hm.lexeme (by simp [m.isIdent])
  | operation h =>
    obtain ⟨problem, span⟩ := d
    cases problem <;> trivial
  | misplaced t ht h =>
    obtain rfl | rfl := h <;> exact (hone t ht).found

/-! ### Lines -/

/-- The line that is printed for an output. -/
def Output.printedLine? : Output → Option (List Char)
  | .value n => some n.text.toList
  | .diagnostic _ => none

/-- The line that complains of an output. -/
def Output.errorLine? : Output → Option (List Char)
  | .value _ => none
  | .diagnostic d => some ("error: ".toList ++ d.message.toList)

namespace Rendered

variable (r : Rendered) (os : List Output)

/-- What is written of outputs comes behind what was written before, line by line. -/
theorem toList_out_foldl_write : (os.foldl write r).out.toList =
    r.out.toList ++ (os.filterMap Output.printedLine?).flatMap (· ++ ['\n']) := by
  induction os generalizing r with
  | nil => exact (List.append_nil _).symm
  | cons o os ih =>
    rw [List.foldl_cons, ih]
    cases o with
    | value n =>
      have hline : s!"{n.text}\n".toList = n.text.toList ++ ['\n'] := String.toList_append
      simp [write, Output.printedLine?, hline]
    | diagnostic d => rfl

theorem toList_err_foldl_write : (os.foldl write r).err.toList =
    r.err.toList ++ (os.filterMap Output.errorLine?).flatMap (· ++ ['\n']) := by
  induction os generalizing r with
  | nil => exact (List.append_nil _).symm
  | cons o os ih =>
    rw [List.foldl_cons, ih]
    cases o with
    | value n => rfl
    | diagnostic d =>
      have hline : s!"error: {d.message}\n".toList =
          "error: ".toList ++ d.message.toList ++ ['\n'] := by
        simp [toString]
      simp [write, Output.errorLine?, hline]

end Rendered

/-- Lines without a break in them are told apart by the line feeds behind them. -/
theorem Text.splitOn_lines {lines : List (List Char)} (h : ∀ line ∈ lines, BreaksNoLine line) :
    (lines.flatMap (· ++ ['\n'])).splitOn '\n' = lines ++ [[]] := by
  induction lines with
  | nil => rfl
  | cons line lines ih =>
    obtain ⟨hline, hlines⟩ := List.forall_mem_cons.mp h
    have hnone : ∀ c ∈ line, (c == '\n') = false := fun c hc => by simp [(hline c hc).1]
    rw [List.flatMap_cons, List.append_assoc, List.singleton_append, List.splitOn,
      List.splitOnP_append_cons_of_forall_mem hnone '\n' rfl]
    exact congrArg (line :: ·) (ih hlines)

theorem Text.count_lines {lines : List (List Char)} (h : ∀ line ∈ lines, BreaksNoLine line) :
    (lines.flatMap (· ++ ['\n'])).count '\n' = lines.length := by
  induction lines with
  | nil => rfl
  | cons line lines ih =>
    obtain ⟨hline, hlines⟩ := List.forall_mem_cons.mp h
    have hnone : line.count '\n' = 0 := List.count_eq_zero.mpr fun hc => (hline _ hc).1 rfl
    rw [List.flatMap_cons, List.count_append, List.count_append, hnone, ih hlines]
    simp [Nat.add_comm]

/-- **What is printed has a line for each output.** Whatever text a session runs, what it prints has
one line feed for each value among its outputs, and what it complains of one for each diagnostic. Cut
at the line feeds they give back the texts of the values and of the diagnostics, in their order, each
of the latter behind `error: `. No diagnostic has a line break in it, whatever it quotes of the
text. -/
theorem Session.run_rendered (session : Session) (source : String) :
    let t := (session.run source).1
    t.stdout.toList.count '\n' = t.outputs.countP (· matches .value _) ∧
    t.stderr.toList.count '\n' = t.outputs.countP (· matches .diagnostic _) ∧
    t.stdout.toList.splitOn '\n' = t.outputs.filterMap Output.printedLine? ++ [[]] ∧
    t.stderr.toList.splitOn '\n' = t.outputs.filterMap Output.errorLine? ++ [[]] ∧
    ∀ d, .diagnostic d ∈ t.outputs → BreaksNoLine d.message.toList := by
  obtain ⟨config, b⟩ := session
  obtain ⟨os, c, b', s, hruns, hrun⟩ := Session.exists_run_eq config b source
  have hmessages : ∀ d, .diagnostic d ∈ os → BreaksNoLine d.message.toList := fun d hd =>
    d.breaksNoLine_message (hruns.origin (Script.sound_ofText _ source)
      (Script.ready_ofText _ source) hd).quotesOneLine
  have houtputs : (Transcript.ofScript s os.toArray c).outputs = os := rfl
  rw [hrun]
  intro t
  have hout : t.stdout.toList = (os.filterMap Output.printedLine?).flatMap (· ++ ['\n']) :=
    Rendered.toList_out_foldl_write {} os
  have herr : t.stderr.toList = (os.filterMap Output.errorLine?).flatMap (· ++ ['\n']) :=
    Rendered.toList_err_foldl_write {} os
  -- neither what is printed nor what is complained of breaks a line
  have hprinted : ∀ line ∈ os.filterMap Output.printedLine?, BreaksNoLine line := by
    intro line hl
    obtain ⟨o, -, ho⟩ := List.mem_filterMap.mp hl
    cases o with
    | value n =>
      obtain rfl := Option.some.inj ho
      exact n.breaksNoLine_text
    | diagnostic d => cases ho
  have herrors : ∀ line ∈ os.filterMap Output.errorLine?, BreaksNoLine line := by
    intro line hl
    obtain ⟨o, hmem, ho⟩ := List.mem_filterMap.mp hl
    cases o with
    | value n => cases ho
    | diagnostic d =>
      obtain rfl := Option.some.inj ho
      exact breaksNoLine_append.mpr ⟨by decide, hmessages d hmem⟩
  rw [hout, herr, houtputs]
  refine ⟨?_, ?_, splitOn_lines hprinted, splitOn_lines herrors, hmessages⟩
  · rw [count_lines hprinted, List.length_filterMap_eq_countP]
    exact List.countP_congr fun o _ => by cases o <;> rfl
  · rw [count_lines herrors, List.length_filterMap_eq_countP]
    exact List.countP_congr fun o _ => by cases o <;> rfl

end LineCalc
