import LineCalc.Proofs.Transcript.Slots

/-!
# Keywords as names

A keyword is no name, unless it stands in front of a wide character: a word goes on there, and a name
ends. Where no keyword stands in such a place, no name that is read is spelled like one, so that none
is bound by a run. What a run binds can then be read back, by its name alone.

A name that is spelled like a keyword can be bound as well, but it cannot be read back: alone it is the
keyword.
-/

namespace LineCalc

open Grammar Move

variable {standIn : Span → Number} {b b' : Bindings} {s t : Script} {c c' : Bool} {os : List Output}
variable {m : List Move} {w rest : List Char}

/-! ### Names that are spelled like keywords -/

theorem Func.exists_of_mem_keywords (h : String.ofList w ∈ keywords) :
    ∃ f : Func, w = f.keyword.toList := by
  obtain ⟨f, -, hf⟩ := List.mem_map.mp h
  exact ⟨f, by rw [hf, String.toList_ofList]⟩

/-- A lexeme that is spelled like a keyword is a name if no word ends behind it, and only then. -/
theorem Rule.ident_iff_of_keyword {names : NameGrammar} {rule : Rule}
    (h : first? names (w ++ rest) = some (rule, w.length)) (hw : String.ofList w ∈ Func.keywords) :
    rule = .ident ↔ Text.wordEndsBefore rest = false := by
  obtain ⟨f, rfl⟩ := Func.exists_of_mem_keywords hw
  constructor
  · rintro rfl
    exact wordEndsBefore_of_ident rfl h
  · intro he
    have hlength := length?_of_first? h
    obtain ⟨c, hc, hfamily⟩ := familyOf_of_length? hlength
    have hident : familyOf c = some .ident := by
      cases f <;> obtain rfl := Option.some.inj hc <;> rfl
    have hword : rule = .func ∨ rule = .ident := by
      have hrule : rule.family = .ident := Option.some.inj (hfamily.symm.trans hident)
      cases rule <;> simp_all [family]
    refine hword.resolve_left ?_
    rintro rfl
    -- the rule for keywords looks for the end of the word
    obtain ⟨g, -, hg⟩ := List.exists_of_findSome?_eq_some hlength
    obtain ⟨-, hend, hl⟩ := wordLength?_eq_some_iff.mp hg
    rw [← hl, List.drop_left, he] at hend
    cases hend

namespace Chunk

/-- Behind each chunk from the cursor on that is spelled like a keyword a word ends. -/
def KeywordsEndFrom (names : NameGrammar) (place : Cursor) (text : List Char) : Prop :=
  ∀ chunk rest, chunk :: rest <:+ cutFrom names [] place 0 text →
    String.ofList chunk.chars ∈ Func.keywords → Text.wordEndsBefore (rest.flatMap chars) = true

theorem keywordsEndFrom_cons {names : NameGrammar} {place place' : Cursor} {chunk : Chunk}
    {text : List Char}
    (h : cutFrom names [] place 0 text = chunk :: cutFrom names [] place' 0 rest) :
    KeywordsEndFrom names place text ↔
      (String.ofList chunk.chars ∈ Func.keywords → Text.wordEndsBefore rest = true) ∧
        KeywordsEndFrom names place' rest := by
  have hrest : (cutFrom names [] place' 0 rest).flatMap chars = rest :=
    flatMap_chars_cutFrom names place' 0 rest
  constructor
  · intro hk
    refine ⟨?_, fun chunk' rest' hs => hk chunk' rest' ?_⟩
    · rw [← hrest]
      exact hk chunk _ (h ▸ List.suffix_refl _)
    · rw [h]
      exact hs.trans (List.suffix_cons ..)
  · rintro ⟨hk, hk'⟩ chunk' rest' hs
    rw [h] at hs
    rcases List.suffix_cons_iff.mp hs with he | hs
    · obtain ⟨rfl, rfl⟩ := List.cons.inj he
      rwa [hrest]
    · exact hk' chunk' rest' hs

/-- No name is spelled like a keyword, if and only if a word ends behind each chunk that is. -/
theorem keywordsEndFrom_iff (names : NameGrammar) (place : Cursor) (text : List Char) :
    KeywordsEndFrom names place text ↔ ∀ t, .ok t ∈ Reading.items names place text →
      t.kind = .ident → t.lexeme ∉ Func.keywords := by
  -- chunk by chunk; only a lexeme that is spelled like a keyword says anything
  induction place, text using cut_induction names with
  | nil place =>
    constructor
    · intro _ t ht hk
      cases Except.ok.inj (List.mem_singleton.mp ht)
      cases hk
    · intro _ chunk rest hs
      cases List.eq_nil_of_suffix_nil hs
  | illegal place c rest h ih =>
    rw [keywordsEndFrom_cons (cutFrom_illegal h place), ih, Reading.items_illegal h]
    have hlength : String.ofList [c] ∉ Func.keywords := by
      intro hw
      obtain ⟨f, hf⟩ := Func.exists_of_mem_keywords hw
      cases f <;> cases hf
    constructor
    · rintro ⟨-, hrest⟩ t ht
      exact hrest t ((List.mem_cons.mp ht).resolve_left (by simp))
    · exact fun hrest => ⟨fun hw => absurd hw hlength, fun t ht => hrest t (List.mem_cons_of_mem _ ht)⟩
  | matched place rule w rest h ih =>
    rw [keywordsEndFrom_cons (cutFrom_matched h place), ih, Reading.items_matched h]
    constructor
    · rintro ⟨hkeyword, hrest⟩ t ht hk
      rcases List.mem_append.mp ht with ht | ht
      · obtain ⟨rfl, hlexeme, -⟩ := ident_of_item? (Option.mem_toList.mp ht) hk
        rw [hlexeme]
        intro hw
        have hend := (Rule.ident_iff_of_keyword h hw).mp rfl
        rw [hkeyword hw] at hend
        cases hend
      · exact hrest t ht hk
    · intro hnames
      refine ⟨fun hw => ?_, fun t ht => hnames t (List.mem_append_right _ ht)⟩
      refine Bool.of_not_eq_false fun he => ?_
      obtain rfl := (Rule.ident_iff_of_keyword h hw).mpr he
      exact hnames _ (List.mem_append_left _ List.mem_cons_self) rfl hw

end Chunk

/-- Behind each chunk of the text that is spelled like a keyword a word ends. -/
def Reading.KeywordsEnd (names : NameGrammar) (source : String) : Prop :=
  Chunk.KeywordsEndFrom names {} source.toList

/-- So no name of the text is spelled like a keyword, and only then. -/
theorem Reading.keywordsEnd_iff (names : NameGrammar) (source : String) :
    KeywordsEnd names source ↔ ∀ t ∈ tokens (ofText names source), t.kind = .ident →
      t.lexeme ∉ Func.keywords := by
  refine (Chunk.keywordsEndFrom_iff names {} source.toList).trans (forall_congr' fun t => ?_)
  rw [mem_tokens]
  constructor
  · rintro h ⟨r, hr, hi⟩
    exact h (hi ▸ List.mem_map_of_mem hr)
  · intro h ht
    exact h (List.mem_map.mp ht)

/-! ### A text with one expression -/

/-- Where nothing that is still to be read is wrong, only the moves put out. -/
theorem Progress.queue_eq (p : Progress s m t) (h : Reading.diagnostics s.unread = []) :
    t.queue = s.queue ++ outputs m ∧ Reading.diagnostics t.unread = [] := by
  have hlexical : s.Lexical := by
    intro r hr d hd
    have hmem := Reading.mem_diagnostics.mpr ⟨r, hr, hd⟩
    rw [h] at hmem
    cases hmem
  obtain ⟨read, new, hu, hq, hl, hn⟩ := p.queue hlexical
  rw [hu, Reading.diagnostics_append, List.append_eq_nil_iff] at h
  rw [h.1, List.map_nil, List.filter_eq_nil_iff] at hl
  have hall : ∀ o ∈ new, (!o.isLexical) = true := by simpa using hl
  rw [List.filter_eq_self.mpr hall] at hn
  exact ⟨by rw [hq, hn], h.2⟩

/-- A line that the end of the input ends takes its content. -/
theorem Grammar.Line.taken_moves_full (scope : Scope) (k : Content) {stop : LineEnd}
    (hstop : stop.1.kind = .endOfInput) : taken ((full k stop).moves scope) = k.tokens := by
  have hverdict : taken (k.verdict scope) = [] := by
    unfold Content.verdict
    split <;> rfl
  simp [moves, LineEnd.moves, hstop, hverdict]

/-- Where nothing but the end of the input is ahead, a run ends, and puts out nothing. -/
theorem Ends.exists_of_end (c : Bool) (standIn : Span → Number) (b : Bindings) {stop : LineEnd}
    (hstop : stop.1.kind = .endOfInput) (hs : s.Sound) (hr : s.Ready) (ha : s.ahead = [stop.1])
    (hlegal : Reading.diagnostics s.unread = []) : ∃ t, Ends c standIn b s [] true t := by
  have hnone : (Line.blank stop).result ⟨b, standIn⟩ = none := by simp [Line.result, hstop]
  have hqueue := (((Line.blank stop).progress ⟨b, standIn⟩ (Nat.zero_le _) ha hs.room).queue_eq
    hlegal).1
  have houtputs : outputs ((Line.blank stop).moves ⟨b, standIn⟩) = [] := by simp [Line.moves]
  rw [hr.queue, houtputs, List.append_nil] at hqueue
  have hend := Ends.of_line c (.blank stop) (Nat.zero_le _) ha hs.room hnone
  rw [hqueue] at hend
  exact ⟨_, hend⟩

/-- Where one line is ahead, and nothing illegal, a run puts out what the line does. -/
theorem Runs.exists_of_line (c : Bool) (standIn : Span → Number) (b : Bindings) (k : Content)
    {stop : LineEnd} (hstop : stop.1.kind = .endOfInput) (hs : s.Sound) (hr : s.Ready)
    (ha : s.ahead = (Line.full k stop).tokens) (hlegal : Reading.diagnostics s.unread = [])
    (hheight : k.height ≤ maxNesting) :
    ∃ t, Runs c standIn b s (outputs ((Line.full k stop).moves ⟨b, standIn⟩)) true
      (k.bindings ⟨b, standIn⟩) t := by
  have ha' : s.ahead = (Line.full k stop).tokens ++ [] := by rw [ha, List.append_nil]
  have p := (Line.full k stop).progress ⟨b, standIn⟩ hheight ha' hs.room
  have hpass : Passes c standIn b s _ (k.bindings ⟨b, standIn⟩) _ :=
    .of_line c (.full k stop) hheight ha' hs.room rfl
  obtain ⟨hs₁, hr₁⟩ := hpass.ready hs hr
  obtain ⟨hqueue, hlegal₁⟩ := p.queue_eq hlegal
  rw [hr.queue, List.nil_append] at hqueue
  have ha₁ : (s.acts ((Line.full k stop).moves ⟨b, standIn⟩)).ahead = [stop.1] := by
    refine p.ahead_eq (ha.trans ?_)
    rw [Line.taken_moves_full _ k hstop]
    rfl
  obtain ⟨t, hend⟩ := Ends.exists_of_end c standIn (k.bindings ⟨b, standIn⟩) hstop hs₁ hr₁ ha₁ hlegal₁
  rw [hqueue] at hpass
  have hruns := Runs.pass hpass (.last hend)
  rw [List.append_nil] at hruns
  exact ⟨t, hruns⟩

/-- A text of one line, with nothing illegal, puts out what the line does. -/
theorem Session.run_line (config : Config) (b : Bindings) {source : String} (k : Content)
    {stop : LineEnd} (hstop : stop.1.kind = .endOfInput)
    (htokens : Reading.tokens (Reading.ofText config.names source) = (Line.full k stop).tokens)
    (hlegal : Reading.diagnostics (Reading.ofText config.names source) = [])
    (hheight : k.height ≤ maxNesting) :
    ∃ t, Session.run ⟨config, b⟩ source =
      (Transcript.ofScript t (outputs ((Line.full k stop).moves ⟨b, config.standIn⟩)).toArray true,
        ⟨config, k.bindings ⟨b, config.standIn⟩⟩) := by
  obtain ⟨t, h⟩ := Runs.exists_of_line config.keepGoing config.standIn b k hstop
    (Script.sound_ofText config.names source) (Script.ready_ofText config.names source) htokens hlegal
    hheight
  exact ⟨t, Session.run_eq_of_runs h⟩

/-- The content of a line with nothing but an operand. -/
def Grammar.Content.ofOperand (u : Phrase .operand) : Content :=
  .expression .print (.term (.operand u)) none

theorem Grammar.Content.bindings_ofOperand (scope : Scope) (u : Phrase .operand) :
    (ofOperand u).bindings scope = scope.bindings := by
  unfold bindings
  split
  · rename_i h
    cases h
  · rfl

/-- A line with an operand that has a value puts out the value. -/
theorem Grammar.Line.outputs_ofOperand {scope : Scope} {u : Phrase .operand}
    (hunbound : u.unbound scope = []) (hfaults : u.faults scope = []) (stop : LineEnd) :
    outputs ((full (.ofOperand u) stop).moves scope) = [.value (u.value scope)] := by
  have hcontent : outputs ((Content.ofOperand u).moves scope) = [] := by
    simp [Content.ofOperand, Content.moves, Content.deedMoves, Content.remark?, Remark.moves,
      Phrase.unbound, hunbound]
  have hverdict : (Content.ofOperand u).verdict scope = [.print (u.value scope)] := by
    simp [Content.ofOperand, Content.verdict, Content.faults, Phrase.faults, Content.deed, Lead.deed,
      Phrase.value, hfaults]
  simp [moves, hcontent, hverdict]

/-! ### A name alone -/

/-- A name that is no keyword is found by itself as well. -/
theorem Rule.first?_alone (h : first? .free (w ++ rest) = some (.ident, w.length))
    (hw : String.ofList w ∉ Func.keywords) : first? .free w = some (.ident, w.length) := by
  have hplain : (Rule.ident.pattern .free).Plain := ⟨trivial, trivial⟩
  obtain ⟨n, hn, hle⟩ := exists_length?_of_matches
    ((matches_of_length? (length?_of_first? h)).of_plain hplain [])
  rw [List.append_nil] at hn
  obtain rfl : n = w.length := Nat.le_antisymm (length_of_length? hn) hle
  refine first?_eq_some hn (fun r k hr => length_of_length? hr) fun _ hk => hw ?_
  obtain ⟨f, hf, hword⟩ := List.exists_of_findSome?_eq_some hk
  obtain ⟨hl, hp⟩ := eq_of_wordLength? hword
  rw [← hp.eq_of_length hl.symm, String.ofList_toList]
  exact List.mem_map_of_mem hf

/-- Alone it is read as a name, and nothing else is read. -/
theorem Reading.exists_tokens_alone (h : Rule.first? .free w = some (.ident, w.length)) :
    ∃ span stop, stop.kind = .endOfInput ∧ diagnostics (ofText .free (String.ofList w)) = [] ∧
      tokens (ofText .free (String.ofList w)) =
        [⟨.ident, .ident (String.ofList w), String.ofList w, span⟩, stop] := by
  let place := ({} : Cursor).collapse.advanceOver w
  have hread : ofText .free (String.ofList w) =
      ofChunks [⟨.matched .ident w, place⟩] := by
    have hfirst : Rule.first? .free (w ++ []) = some (.ident, w.length) := by
      rwa [List.append_nil]
    have hmatched := Chunk.cutFrom_matched hfirst {}
    rw [List.append_nil] at hmatched
    rw [ofText, String.toList_ofList]
    exact congrArg ofChunks hmatched
  rw [hread]
  exact ⟨place.span, endToken place, rfl, rfl, rfl⟩

/-- The content of a line on which a name stands alone. -/
def Grammar.Content.ofMention (mention : Mention) : Content :=
  .expression .print (.term (.operand (.primary (.name mention)))) none

theorem Grammar.Line.outputs_ofMention {scope : Scope} {mention : Mention} {value : Number}
    (h : scope.bindings.get? mention.name = some value) (stop : LineEnd) :
    outputs ((full (.ofMention mention) stop).moves scope) = [.value value] := by
  have hunbound : (Phrase.primary (.name mention)).unbound scope = [] := by
    simp [Phrase.unbound, Mention.unbound, h]
  have hvalue : (Phrase.primary (.name mention)).value scope = value := by
    simp [Phrase.value, h]
  exact hvalue ▸ outputs_ofOperand hunbound rfl stop

/-- The value of a name can be read back by the name alone. -/
theorem Session.run_alone (config : Config) (b : Bindings) {value : Number}
    (h : Rule.first? .free w = some (.ident, w.length)) (hb : b.get? (String.ofList w) = some value) :
    let session : Session := ⟨{ config with names := .free }, b⟩
    (session.run (String.ofList w)).1.outputs = [.value value] ∧
      (session.run (String.ofList w)).1.completed = true ∧
      (session.run (String.ofList w)).2.bindings = b := by
  intro session
  obtain ⟨span, stop, hstop, hlegal, htokens⟩ := Reading.exists_tokens_alone h
  let mention : Mention :=
    ⟨⟨.ident, .ident (String.ofList w), String.ofList w, span⟩, String.ofList w, rfl, rfl⟩
  let last : LineEnd := ⟨stop, by rw [hstop]; rfl⟩
  obtain ⟨t, hrun⟩ := Session.run_line session.config b (.ofMention mention)
    (show last.1.kind = .endOfInput from hstop) htokens hlegal (Nat.zero_le _)
  rw [Line.outputs_ofMention hb] at hrun
  have hrun : session.run (String.ofList w) = _ := hrun
  rw [hrun]
  exact ⟨rfl, rfl, rfl⟩

/-- **Keywords are no names where words end behind them.** Whatever the text is: no name in it is spelled
like a keyword, if and only if a word ends behind each chunk that is. Then a run binds no keyword, and
one that was bound keeps its value. What a run binds has a value afterwards, and the name alone reads
it back. -/
theorem Session.run_reserved (config : Config) (bindings : Bindings) (source : String) :
    let tokens := Reading.tokens (Reading.ofText .free source)
    let first := Session.run ⟨{ config with names := .free }, bindings⟩ source
    let stores := first.1.log.filterMap Event.stored?
    first.2.bindings = bindings.setAll stores ∧
    (Reading.KeywordsEnd .free source ↔
      ∀ t ∈ tokens, t.kind = .ident → t.lexeme ∉ Func.keywords) ∧
    (Reading.KeywordsEnd .free source →
      (∀ keyword ∈ Func.keywords, first.2.bindings.get? keyword = bindings.get? keyword) ∧
      ∀ e ∈ stores, e.1 ∉ Func.keywords ∧ ∃ value, first.2.bindings.get? e.1 = some value ∧
        (first.2.run e.1).1.outputs = [.value value] ∧ (first.2.run e.1).1.completed = true ∧
        (first.2.run e.1).2.bindings = first.2.bindings) := by
  intro tokens first stores
  obtain ⟨_, rfl, hbindings, -⟩ :=
    Session.exists_stores { config with names := .free } bindings source
  refine ⟨hbindings, Reading.keywordsEnd_iff .free source, fun hends => ?_⟩
  have hnames := (Reading.keywordsEnd_iff .free source).mp hends
  have hstores : ∀ e ∈ stores, e.1 ∉ Func.keywords := by
    intro e he
    obtain ⟨t, ht, hk, hlexeme⟩ :=
      Session.exists_ident_of_stored { config with names := .free } bindings source e he
    exact hlexeme ▸ hnames t ht hk
  constructor
  · intro keyword hkeyword
    have hkept : (bindings.setAll stores).get? keyword = bindings.get? keyword :=
      Bindings.get?_setAll fun e he heq => hstores e he (heq ▸ hkeyword)
    exact (congrArg (·.get? keyword) hbindings).trans hkept
  · intro e he
    -- the name of an assignment is that of a token, and can be found by itself
    obtain ⟨t, ht, hk, hlexeme⟩ :=
      Session.exists_ident_of_stored { config with names := .free } bindings source e he
    obtain ⟨r, hr, hi⟩ := Reading.mem_tokens.mp ht
    obtain ⟨w, rest, hw, -, hfirst⟩ :=
      Reading.exists_of_ident .free {} source.toList (hi ▸ List.mem_map_of_mem hr) hk
    have hname : e.1 = String.ofList w := hlexeme.symm.trans hw
    have hsome : (first.2.bindings.get? e.1).isSome :=
      hbindings ▸ Bindings.isSome_get?_of_mem he
    obtain ⟨value, hvalue⟩ := Option.isSome_iff_exists.mp hsome
    have hkeyword := hstores e he
    refine ⟨hkeyword, value, hvalue, ?_⟩
    rw [hname] at hkeyword hvalue ⊢
    exact Session.run_alone config first.2.bindings (Rule.first?_alone hfirst hkeyword) hvalue

/-- A name that is bound and used in a call. -/
theorem Session.run_reserved_called :
    let source := "x = 1\nsin(x)"
    let first := Session.run {} source
    let stores := first.1.log.filterMap Event.stored?
    Reading.KeywordsEnd .free source ∧ stores.map (·.1) = ["x"] ∧
    (∀ keyword ∈ Func.keywords, first.2.bindings.get? keyword = none) ∧
    ∀ e ∈ stores, e.1 ∉ Func.keywords ∧ ∃ value, first.2.bindings.get? e.1 = some value ∧
      (first.2.run e.1).1.outputs = [.value value] ∧ (first.2.run e.1).1.completed = true ∧
      (first.2.run e.1).2.bindings = first.2.bindings := by
  intro source first stores
  obtain ⟨-, hiff, hends⟩ := Session.run_reserved {} {} source
  have hkeywords : Reading.KeywordsEnd .free source := hiff.mpr (by decide +kernel)
  obtain ⟨hnone, hback⟩ := hends hkeywords
  exact ⟨hkeywords, by decide +kernel, hnone, hback⟩

/-- In front of a wide character a keyword is read as a name, and bound. Its value cannot be read back:
alone it is the keyword of a call that breaks off. -/
theorem Session.run_reserved_wide :
    let tokens := Reading.tokens (Reading.ofText .free "siné = 3")
    let first := Session.run {} "siné = 3"
    (∃ t ∈ tokens, t.kind = .ident ∧ t.lexeme ∈ Func.keywords) ∧ first.1.completed = true ∧
      first.2.bindings.names = ["sin"] ∧ (first.2.run "sin").1.values.length = 0 ∧
      (first.2.run "sin").1.completed = false := by
  decide +kernel

end LineCalc
