import LineCalc.Proofs.Reading.Joints
import LineCalc.Proofs.Session.Append
import LineCalc.Proofs.Transcript.Bared
import LineCalc.Proofs.Transcript.LineFeeds
import LineCalc.Proofs.Transcript.StandIn

/-!
# Runs without comments

A text is run line by line, and a line without its comment does what it did with it. So a text without
its comments runs as it did, and only a comment that was in the wrong place is missed: the end of its line
is in the wrong place then. The places are the same, unless a carriage return and a line feed come
together where a comment stood between them: what stands behind them moves up by a line.
-/

namespace LineCalc

open Grammar Move Reading

variable {names : NameGrammar} {standIn : Span → Number} {b b' : Bindings} {s s' t : Script} {c c' : Bool}
variable {os os' : List Output} {o o' : Output} {up up' : Nat → Nat}
variable {text u w stop stop' front back front' back' : List Char}

/-- The script of a text that is given by its characters. -/
def Script.ofChars (names : NameGrammar) (text : List Char) : Script :=
  .ofText names (String.ofList text)

/-! ### A single line -/

/-- All that can end a text of one line: nothing, or a line break. -/
def EndsText (stop : List Char) : Prop := stop = [] ∨ LineBreak stop []

theorem EndsText.breaks (h : EndsText stop) : Breaks stop := by
  rcases h with rfl | h
  · exact breaks_nil
  · exact h.breaks

/-- The end of a text is read as the end of a row, from where it stands. -/
theorem EndsText.closes (h : EndsText stop) (names : NameGrammar) (blanks : List Chunk)
    (place : Cursor) : ∃ last : LineEnd, last.1.span.start = place.span.stop ∧
      Closes last (readFrom [] place blanks (Chunk.cutFrom names [] place 0 stop)) := by
  rcases h with rfl | h
  · exact ⟨⟨endToken place, rfl⟩, rfl, .endOfInput rfl⟩
  · let chunk : Chunk := ⟨.matched .newLine stop, place.collapse.advanceOver stop⟩
    have hcut : Chunk.cutFrom names [] place 0 stop = [chunk] := by
      rcases h with rfl | rfl | ⟨rfl, -⟩ <;> rfl
    rw [hcut]
    exact ⟨⟨⟨.newLine, .none, String.ofList stop, chunk.span⟩, rfl⟩,
      Cursor.start_advanceOver .., .newLine rfl rfl⟩

/-- A line with a comment at its end, and the line without it, are rows with and without it. -/
theorem exists_stripped (hu : Chunk.Inline names (w ++ stop) u) (hw : IsComment w)
    (hs : EndsText stop) (hs' : EndsText stop') : ∃ r chunks front back back' last last',
      ofText names (String.ofList (u ++ (w ++ stop))) = front ++ [⟨chunks, .ok r.token⟩] ++ back ∧
      ofText names (String.ofList (u ++ stop')) = front ++ back' ∧
      Stripped r chunks front back back' last last' := by
  obtain ⟨chunks, -, hplain, hcut⟩ := hu.exists_cut (Text.wordEndsBefore_of_isComment hw stop) {}
  obtain ⟨front, blanks, hfront, hread⟩ := exists_readFrom_plain {} [] hplain
  let place := Chunk.behind {} chunks
  let comment : Chunk := ⟨.matched .comment w, place.collapse.advanceOver w⟩
  let r : Remark :=
    ⟨⟨.comment, .comment (String.ofList (w.drop 2)), String.ofList w, comment.span⟩, _, rfl, rfl⟩
  obtain ⟨last, -, hlast⟩ := hs.closes names [] comment.cursor
  obtain ⟨last', hstart', hlast'⟩ := hs'.closes names blanks place
  -- both texts are cut alike up to the comment, which the first one reads as a token
  have hrow : ofText names (String.ofList (u ++ (w ++ stop))) =
      front ++ [⟨blanks ++ [comment], .ok r.token⟩] ++
        readFrom [] comment.cursor [] (Chunk.cutFrom names [] comment.cursor 0 stop) := by
    rw [ofText, ofChunks, Chunk.cut, String.toList_ofList, hcut _ (.inl rfl),
      Chunk.cutFrom_matched (hw.first? hs.breaks names), hread, readFrom]
    show front ++ readFrom [_] comment.cursor [] _ = _
    rw [readFrom_eq_append, List.append_assoc]
    rfl
  have hbare : ofText names (String.ofList (u ++ stop')) =
      front ++ readFrom [] place blanks (Chunk.cutFrom names [] place 0 stop') := by
    rw [ofText, ofChunks, Chunk.cut, String.toList_ofList, hcut _ (.inr hs'.breaks), hread]
  have hinside : ∀ t ∈ tokens (front ++ [⟨blanks ++ [comment], .ok r.token⟩]),
      t.kind.endsLine = false := by
    rw [tokens_append]
    exact List.forall_mem_append.mpr ⟨fun t ht => (hfront t ht).2, by simp [r, TokenKind.endsLine]⟩
  refine ⟨r, _, front, _, _, last, last', hrow, hbare, ?_, ?_, fun t ht => (hfront t ht).1, ?_, ?_⟩
  · exact ⟨hrow ▸ Script.sound_ofText names _, ⟨rfl, rfl, rfl, rfl⟩, rfl, rfl, hlast, hinside⟩
  · exact ⟨hbare ▸ Script.sound_ofText names _, ⟨rfl, rfl, rfl, rfl⟩, rfl, rfl, hlast',
      fun t ht => (hfront t ht).2⟩
  · obtain ⟨body, rfl, -⟩ := hw
    show String.ofList ('%' :: '%' :: body) = "%%" ++ String.ofList body
    rw [← String.toList_inj]
    simp
  · exact (Cursor.start_advanceOver ..).trans hstart'.symm

/-- Texts with the same line feeds have the same runs. -/
theorem RunAlike.of_lineFeeds (names : NameGrammar) (c : Bool) (standIn : Span → Number) (b : Bindings)
    (h : lineFeeds front = lineFeeds back) :
    RunAlike (fun _ => 0) c standIn b (.ofChars names front) (.ofChars names back) := by
  have hfed : ∀ text os c' b' t, Runs c standIn b (.ofChars names text) os c' b' t →
      ∃ t', Runs c standIn b (.ofChars names (lineFeeds text)) os c' b' t' := by
    intro text os c' b' t hruns
    have hread := lineFed_ofText names (String.ofList text)
    rw [String.toList_ofList] at hread
    have hstart : (Script.ofChars names text).Like .lineFed (.ofChars names (lineFeeds text)) :=
      .ofText hread rfl rfl trivial
    obtain ⟨os', t', hruns', hos, -⟩ :=
      hruns.like (fun p p' hp => congrArg standIn (Eq.symm hp)) hstart
    obtain rfl := Output.eq_of_like hos
    exact ⟨t', hruns'⟩
  have hruns : ∀ text, ∃ os c' b' t, Runs c standIn b (.ofChars names text) os c' b' t := by
    intro text
    obtain ⟨os, c', b', t, hruns, -⟩ := exists_runs c standIn b
      (Script.sound_ofText names (String.ofList text)) (Script.ready_ofText names _)
    exact ⟨os, c', b', t, hruns⟩
  obtain ⟨os, c₁, b₁, t, hfront⟩ := hruns front
  obtain ⟨os', c₂, b₂, t', hback⟩ := hruns back
  obtain ⟨u, hu⟩ := hfed front _ _ _ _ hfront
  obtain ⟨u', hu'⟩ := hfed back _ _ _ _ hback
  obtain ⟨rfl, rfl, rfl, -⟩ := (h ▸ hu).unique hu'
  exact ⟨os, os, c₁, b₁, t, t', hfront, hback, Output.uncommented_refl os⟩

/-- A line runs alike without its comment, whichever line break ends it. -/
theorem RunAlike.of_line (hu : Chunk.Inline names (w ++ stop) u) (hw : MayRemark w)
    (hs : stop = [] ∧ stop' = [] ∨ LineBreak stop [] ∧ LineBreak stop' []) (c : Bool)
    (standIn : Span → Number) (b : Bindings) :
    RunAlike (fun _ => 0) c standIn b (.ofChars names (u ++ (w ++ stop)))
      (.ofChars names (u ++ stop')) := by
  rcases hw with rfl | hw
  · refine .of_lineFeeds names c standIn b ?_
    rw [lineFeeds_append hu.inside, lineFeeds_append hu.inside]
    rcases hs with ⟨rfl, rfl⟩ | ⟨hs, hs'⟩
    · rfl
    · have hfeed := lineFeeds_lineBreak hs
      have hfeed' := lineFeeds_lineBreak hs'
      rw [List.append_nil] at hfeed hfeed'
      rw [List.nil_append, hfeed, hfeed']
  · have hs₁ : EndsText stop := hs.imp And.left And.left
    have hs₂ : EndsText stop' := hs.imp And.right And.right
    obtain ⟨r, chunks, front, back, back', last, last', hrow, hbare, h⟩ :=
      exists_stripped hu hw hs₁ hs₂
    rw [Script.ofChars, Script.ofText, hrow, Script.ofChars, Script.ofText, hbare]
    exact h.runAlike c standIn b

/-- An empty line puts out nothing. -/
theorem Runs.exists_of_blank (h : EndsText stop) (names : NameGrammar) (c : Bool)
    (standIn : Span → Number) (b : Bindings) :
    ∃ t, Runs c standIn b (.ofChars names stop) [] true b t := by
  obtain ⟨last, -, hcloses⟩ := h.closes names [] {}
  have hread : ofText names (String.ofList stop) =
      readFrom [] {} [] (Chunk.cutFrom names [] {} 0 stop) := by
    rw [ofText, String.toList_ofList]
    rfl
  rw [← hread] at hcloses
  have hrow : OneRow [] last _ (.ofChars names stop) :=
    ⟨Script.sound_ofText .., Script.ready_ofText .., rfl, rfl, hcloses, by simp⟩
  have p := Script.progress_acts (hrow.legal_line ⟨b, standIn⟩ (l := .blank last) (Nat.zero_le _) rfl)
  have hqueue := (p.queue_eq hcloses.diagnostics).1
  have houtputs : outputs ((Line.blank last).moves ⟨b, standIn⟩) = [] := by simp [Line.moves]
  obtain ⟨t, hruns⟩ := hrow.runs_line c standIn b (l := .blank last) (Nat.zero_le _) rfl
  have hresult : ((Line.blank last).result ⟨b, standIn⟩).getD b = b := by
    rw [Line.result]
    split <;> rfl
  rw [hqueue, houtputs, hresult] at hruns
  exact ⟨t, hruns⟩

theorem Runs.exists_of_comment (hw : IsComment w) (names : NameGrammar) (c : Bool)
    (standIn : Span → Number) (b : Bindings) :
    ∃ t, Runs c standIn b (.ofChars names (w ++ ['\n'])) [] true b t := by
  have hbreak : LineBreak ['\n'] [] := .inr (.inl rfl)
  have hnil : Chunk.Inline names (w ++ ['\n']) [] := .nil
  obtain ⟨os, os', c', b', t, t', hruns, hruns', hos⟩ :=
    RunAlike.of_line hnil (.inr hw) (.inr ⟨hbreak, hbreak⟩) c standIn b
  obtain ⟨t'', hempty⟩ := Runs.exists_of_blank (.inr hbreak) names c standIn b
  obtain ⟨rfl, rfl, rfl, -⟩ := hruns'.unique hempty
  obtain rfl := List.forall₂_nil_right_iff.mp hos
  exact ⟨t, hruns⟩

/-! ### Line by line -/

/-- The run of two texts of which the first ends with its last line: the second is run further down, or
not at all. -/
theorem Runs.append {n : Number} (hf : Ended front) (hp : Parts front back)
    (h : Runs c (fun _ => n) b (.ofChars names front) os c' b' t) :
    (c' = true ∧ ∀ {os₂ c₂ b₂ t₂}, Runs c (fun _ => n) b' (.ofChars names back) os₂ c₂ b₂ t₂ →
      ∃ u, Runs c (fun _ => n) b (.ofChars names (front ++ back))
        (os ++ os₂.map (Output.down (lineBreaks front))) c₂ b₂ u) ∨
    c' = false ∧ ∃ u, Runs c (fun _ => n) b (.ofChars names (front ++ back)) os false b' u := by
  have hf' : (String.ofList front).toList = [] ∨ Ended (String.ofList front).toList :=
    .inr (String.toList_ofList ▸ hf)
  have hp' : Parts (String.ofList front).toList (String.ofList back).toList := by
    rwa [String.toList_ofList, String.toList_ofList]
  have hboth : Script.ofChars names (front ++ back) =
      .ofText names (String.ofList front ++ String.ofList back) := by
    rw [Script.ofChars, String.ofList_append]
  rw [hboth]
  rcases exists_runs_append c (fun _ => n) b hf' hp' (fun _ => rfl) with
    ⟨os₁, b₁, t₁, hfront, hback⟩ | ⟨-, os₁, b₁, t₁, u, hfront, hwhole, -⟩
  · obtain ⟨rfl, rfl, rfl, -⟩ := h.unique hfront
    rw [String.toList_ofList] at hback
    refine .inl ⟨rfl, fun hrest => ?_⟩
    obtain ⟨u, hwhole, -⟩ := hback hrest
    exact ⟨u, hwhole⟩
  · obtain ⟨rfl, rfl, rfl, -⟩ := h.unique hfront
    exact .inr ⟨rfl, u, hwhole⟩

/-- The lines that a run tells of are those of the text. -/
theorem Runs.line_of_mem {source : String} (h : Runs c standIn b (.ofText names source) os c' b' t)
    {d : Diagnostic} (hd : .diagnostic d ∈ os) :
    0 < d.span.start.line ∧ d.span.start.line ≤ lineBreaks source.toList + 1 := by
  have hstart : (Script.ofText names source).AtLine names source 1 := ⟨rfl, [], rfl, rfl⟩
  obtain ⟨blocks, rfl, hlength, hblocks⟩ := h.exists_blocks (Script.sound_ofText names source)
    (Script.ready_ofText names source) hstart
  obtain ⟨block, hblock, hd⟩ := List.mem_flatten.mp hd
  obtain ⟨i, hi, hget⟩ := List.getElem_of_mem hblock
  have hline := (hblocks i block (hget ▸ List.getElem?_eq_getElem hi)).line d hd
  omega

theorem Position.down_down (p : Position) (i k : Nat) : (p.down i).down k = p.down (i + k) := by
  rw [Position.down, Position.down, Position.down, Nat.add_assoc]

theorem Diagnostic.down_down (d : Diagnostic) (i k : Nat) : (d.down i).down k = d.down (i + k) := by
  simp only [Diagnostic.down, Span.down, Position.down_down]

namespace Output.Uncommented

theorem congr (h : Uncommented up o o')
    (hup : ∀ d, o = .diagnostic d → up' d.span.start.line = up d.span.start.line) :
    Uncommented up' o o' := by
  cases h with
  | value n => exact .value n
  | diagnostic h => exact .diagnostic ((hup _ rfl).symm ▸ h)
  | comment hd hd' hs => exact .comment hd hd' ((hup _ rfl).symm ▸ hs)

theorem down {i k : Nat} (h : Uncommented up o o') (hup : ∀ d, o = .diagnostic d →
    up' (d.span.start.line + (i + k)) = up d.span.start.line + k) :
    Uncommented up' (o.down (i + k)) (o'.down i) := by
  cases h with
  | value n => exact .value n
  | @diagnostic d d' h =>
    refine .diagnostic ?_
    show d.down (i + k) = (d'.down i).down (up' (d.span.start.line + (i + k)))
    rw [hup d rfl, Diagnostic.down_down, Nat.add_left_comm, ← Diagnostic.down_down d', ← h]
  | @comment d d' text hd hd' hs =>
    refine .comment hd hd' ?_
    show d.span.start.down (i + k) = (d'.span.start.down i).down (up' (d.span.start.line + (i + k)))
    rw [hup d rfl, Position.down_down, Nat.add_left_comm, ← Position.down_down d'.span.start,
      ← hs]

/-- Where nothing has moved, the lines are the same. -/
theorem exists_line_eq {d : Diagnostic} (h : Uncommented (fun _ => 0) (.diagnostic d) o') :
    ∃ d', o' = .diagnostic d' ∧ d.span.start.line = d'.span.start.line := by
  cases h with
  | diagnostic h => exact ⟨_, rfl, by rw [h]; rfl⟩
  | comment hd hd' hs => exact ⟨_, rfl, by rw [hs]; rfl⟩

/-- So the diagnostics start on the same lines then. -/
theorem spots_line_eq (h : List.Forall₂ (Uncommented fun _ => 0) os os') :
    (spots os').map (·.start.line) = (spots os).map (·.start.line) := by
  induction h with
  | nil => rfl
  | @cons o o' os os' ho _ ih =>
    cases o with
    | value n =>
      cases ho
      exact ih
    | diagnostic d =>
      obtain ⟨d', rfl, hline⟩ := ho.exists_line_eq
      show d'.span.start.line :: (spots os').map _ = d.span.start.line :: (spots os).map _
      rw [hline, ih]

end Output.Uncommented

/-- Where the first lines run alike, and what is behind them does, the texts run alike. The first lines
are one line on the one side, and `k` more on the other. -/
theorem RunAlike.append {k : Nat} {n : Number}
    (h : RunAlike (fun _ => 0) c (fun _ => n) b (.ofChars names front) (.ofChars names front'))
    (hback : ∀ b, RunAlike up c (fun _ => n) b (.ofChars names back) (.ofChars names back'))
    (hf : Ended front) (hp : Parts front back) (hk : lineBreaks front = 1 + k)
    (hf' : Ended front') (hp' : Parts front' back') (hk' : lineBreaks front' = 1)
    (hnone : ∀ line, line ≤ 2 → up' line = 0)
    (hup : ∀ line, 0 < line → up' (line + (1 + k)) = up line + k) :
    RunAlike up' c (fun _ => n) b (.ofChars names (front ++ back)) (.ofChars names (front' ++ back')) := by
  obtain ⟨os, os', c₁, b₁, t, t', hruns, hruns', hos⟩ := h
  -- what is put out in front is on the first two lines, where nothing has moved
  have hlines : ∀ o ∈ os, ∀ d, o = .diagnostic d → d.span.start.line ≤ 2 := by
    rintro _ ho d rfl
    obtain ⟨i, hi⟩ := List.mem_iff_getElem?.mp ho
    obtain ⟨o', ho', hlike⟩ := exists_getElem?_of_forall₂ hos hi
    obtain ⟨d', rfl, hd⟩ := hlike.exists_line_eq
    obtain ⟨-, hline⟩ := Runs.line_of_mem hruns' (List.mem_of_getElem? ho')
    rwa [String.toList_ofList, hk', ← hd] at hline
  have hos : List.Forall₂ (Output.Uncommented up') os os' :=
    ((List.forall₂_and_left ..).mpr ⟨hlines, hos⟩).imp fun o o' ⟨hline, ho⟩ =>
      ho.congr fun d hd => hnone _ (hline d hd)
  rcases Runs.append hf hp hruns with ⟨rfl, hrest⟩ | ⟨rfl, u, hu⟩
  · rcases Runs.append hf' hp' hruns' with ⟨-, hrest'⟩ | ⟨hc, -⟩
    · obtain ⟨os₂, os₂', c₂, b₂, t₂, t₂', hruns₂, hruns₂', hos₂⟩ := hback b₁
      obtain ⟨u, hu⟩ := hrest hruns₂
      obtain ⟨u', hu'⟩ := hrest' hruns₂'
      refine ⟨_, _, c₂, b₂, u, u', hu, hu', List.rel_append hos ?_⟩
      have hlines₂ : ∀ o ∈ os₂, ∀ d, o = .diagnostic d → 0 < d.span.start.line := by
        rintro _ ho d rfl
        exact (Runs.line_of_mem hruns₂ ho).1
      rw [hk, hk', List.forall₂_map_left_iff, List.forall₂_map_right_iff]
      exact ((List.forall₂_and_left ..).mpr ⟨hlines₂, hos₂⟩).imp fun o o' ⟨hline, ho⟩ =>
        ho.down fun d hd => hup _ (hline d hd)
    · cases hc
  · rcases Runs.append hf' hp' hruns' with ⟨hc, -⟩ | ⟨-, u', hu'⟩
    · cases hc
    · exact ⟨os, os', false, b₁, u, u', hu, hu', hos⟩

/-- So do the first lines, whether they stay one or become one. -/
theorem RunAlike.of_head {rest more : List Char} {n : Number}
    (h : Chunk.Head names text u w stop stop' more rest) (c : Bool) (b : Bindings) :
    RunAlike (fun _ => 0) c (fun _ => n) b (.ofChars names (u ++ (w ++ stop) ++ more))
      (.ofChars names (u ++ stop')) := by
  have hs : LineBreak stop [] := h.breaks.of_prefix List.nil_prefix
  have hs' : LineBreak stop' [] := h.breaks'.of_prefix List.nil_prefix
  have hline : RunAlike (fun _ => 0) c (fun _ => n) b (.ofChars names (u ++ (w ++ stop)))
      (.ofChars names (u ++ stop')) := .of_line h.inline h.remark (.inr ⟨hs, hs'⟩) c _ b
  rcases h.joint with rfl | ⟨w', rfl, hw'⟩
  · rwa [List.append_nil]
  · -- nothing is put out for the comment between the line breaks
    obtain ⟨os, os', c₁, b₁, t, t', hruns, hruns', hos⟩ := hline
    have hends := (h.breaks.ended.append_left w).append_left u
    rcases Runs.append hends h.parts hruns with ⟨rfl, hrest⟩ | ⟨rfl, v, hv⟩
    · obtain ⟨t₂, hcomment⟩ := Runs.exists_of_comment hw' names c (fun _ => n) b₁
      obtain ⟨v, hv⟩ := hrest hcomment
      exact ⟨_, os', true, b₁, v, t', hv, hruns', (List.append_nil os).symm ▸ hos⟩
    · exact ⟨os, os', false, b₁, v, t', hv, hruns', hos⟩

/-- A text runs alike without its comments. -/
theorem runAlike_uncommented (names : NameGrammar) (c : Bool) (n : Number) (b : Bindings)
    (text : List Char) : RunAlike (fun line => Chunk.joints line (Chunk.cut names text)) c (fun _ => n) b
      (.ofChars names text) (.ofChars names (Chunk.uncommented (Chunk.cut names text))) := by
  -- on the length of the text: the first line is cut off, and what follows is shorter
  induction hl : text.length using Nat.strongRecOn generalizing text b with
  | ind l ih =>
    obtain ⟨u, w, rfl, hu, hw⟩ | ⟨u, w, stop, stop', more, rest, h⟩ := Chunk.exists_head names text
    · have hsingle : RunAlike (fun _ => 0) c (fun _ => n) b (.ofChars names (u ++ (w ++ [])))
          (.ofChars names (u ++ [])) :=
        .of_line ((List.append_nil w).symm ▸ hu) hw (.inl ⟨rfl, rfl⟩) c _ b
      rw [List.append_nil, List.append_nil] at hsingle
      simp only [Chunk.joints_single hu hw, Chunk.uncommented_single hu hw]
      exact hsingle
    · obtain ⟨hf, hp, hk⟩ := h.ends
      have hf' : Ended (u ++ stop') := h.breaks'.ended.append_left u
      have hp' : Parts (u ++ stop') (Chunk.uncommented (Chunk.cut names rest)) := h.breaks'.parts u
      have hk' : lineBreaks (u ++ stop') = 1 := by
        rw [lineBreaks_append h.inline.inside, h.breaks'.lineBreaks_eq]
      have hshorter : rest.length < l := by
        have hpos := List.length_pos_iff.mpr h.breaks.ended.ne_nil
        rw [← hl, h.whole]
        simp only [List.length_append]
        omega
      have hwhole : text = u ++ (w ++ stop) ++ more ++ rest := by
        rw [h.whole, ← List.append_assoc]
      have hruns := RunAlike.append (.of_head h c b) (fun b => ih _ hshorter b rest rfl) hf hp hk hf' hp'
        hk' (fun line hline => Chunk.joints_le_two names text hline) fun line hline => by
          rw [← h.joints line hline, Nat.add_assoc]
      rwa [← hwhole, ← h.bare] at hruns

/-! ### Sessions -/

/-- A session puts out what a run does in which one number stands in for all that has no value. -/
theorem Session.run_eq_of_constant {config : Config} {source : String} {n : Number}
    (h : Runs config.keepGoing (fun _ => n) b (.ofText config.names source) os c b' t) :
    ∃ t, Session.run ⟨config, b⟩ source = (t, ⟨config, b'⟩) ∧
      t.outputs = os ∧ t.completed = c ∧ t.breach = none := by
  let constant : Config := { config with standIn := fun _ => n }
  let script := Script.ofText config.names source
  obtain ⟨t₁, t₂, b₁, h₁, h₂, log, rfl⟩ : ∃ t₁ t₂ b₁,
      script.run constant b = (t₁, b₁) ∧ script.run config b = (t₂, b₁) ∧
        Transcript.Relogged t₁ t₂ :=
    Script.drain_relogged constant config rfl #[] ⟨_, rfl⟩
  have hrun : script.run constant b = (Transcript.ofScript t os.toArray c, b') :=
    Runs.run_eq h (Script.sound_ofText config.names source)
  obtain ⟨rfl, rfl⟩ := Prod.mk.inj (h₁.symm.trans hrun)
  have hsession : ∀ t, (Script.ofText config.names source).run config b = (t, b₁) →
      Session.run ⟨config, b⟩ source = (t, ⟨config, b₁⟩) := by
    intro t h
    simp only [Session.run, h]
  exact ⟨_, hsession _ h₂, rfl, rfl, rfl⟩

/-- **Comments have no effect on results.** Without its comments a text is completed alike, and leaves the
same bindings, whatever the configuration and the bindings are. What is put out corresponds one to one:
the values are equal, and so are the diagnostics, but for lines that were moved up: a line moves up for
each comment above that stands directly between a carriage return and a line feed, since the two are one
line break without it. Only where a comment was in the wrong place, the end of its line or of the input
is called in its place. It starts at the same place. -/
theorem Session.run_uncommented (config : Config) (bindings : Bindings) (source : String) :
    let source' := Reading.uncommented config.names source
    let up := fun line => Chunk.joints line (Chunk.cut config.names source.toList)
    let run := fun source => Session.run ⟨config, bindings⟩ source
    (run source').1.completed = (run source).1.completed ∧
    (run source').2.bindings = (run source).2.bindings ∧
    (run source').1.breach = none ∧ (run source).1.breach = none ∧
    List.Forall₂ (Output.Uncommented up) (run source).1.outputs (run source').1.outputs := by
  intro source' up run
  obtain ⟨os, os', c, b, t, t', hruns, hruns', hos⟩ :=
    runAlike_uncommented config.names config.keepGoing (.int 0) bindings source.toList
  rw [Script.ofChars, String.ofList_toList] at hruns
  obtain ⟨given, hgiven, houtputs, hcompleted, hbreach⟩ := Session.run_eq_of_constant hruns
  obtain ⟨bare, hbare, houtputs', hcompleted', hbreach'⟩ := Session.run_eq_of_constant hruns'
  have hgiven : run source = (given, ⟨config, b⟩) := hgiven
  have hbare : run source' = (bare, ⟨config, b⟩) := hbare
  rw [hgiven, hbare, houtputs, houtputs', hcompleted, hcompleted']
  exact ⟨rfl, rfl, hbreach', hbreach, hos⟩

/-- A carriage return and a line feed are one line break without the comment between them, so the line
behind them moves up: not all places stay the same. -/
theorem Session.run_uncommented_joint :
    let source := "\r%%c\n$"
    let source' := Reading.uncommented .free source
    let run := fun source => Session.run {} source
    source' = "\r\n$" ∧
      ¬ List.Forall₂ (Output.Uncommented fun _ => 0) (run source).1.outputs (run source').1.outputs := by
  intro source source' run
  have hbare : source' = "\r\n$" := by decide +kernel
  refine ⟨hbare, fun h => ?_⟩
  have hlines := Output.Uncommented.spots_line_eq h
  have hgiven : (Output.spots (run source).1.outputs).map (·.start.line) = [3] := by decide +kernel
  have hmoved : (Output.spots (run source').1.outputs).map (·.start.line) = [2] := by decide +kernel
  rw [hgiven, hmoved] at hlines
  exact absurd hlines (by decide)

end LineCalc
