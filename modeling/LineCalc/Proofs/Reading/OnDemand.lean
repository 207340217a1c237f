import LineCalc.Proofs.Reading.Displaced
import LineCalc.Proofs.Reading.Places

/-!
# Reading on demand

A `Reader` makes the readings of a text one at a time, and counts what it has read. Whoever stops
asking leaves the rest of the text alone. `Reader.covers_ofText` says that the readings are those of
`Reading.ofText`, that nothing is left out, and that the places and counts are right after each call.
-/

namespace LineCalc

namespace Reading

/-- The text that some readings took. -/
def text (rs : List Reading) : List Char := (rs.flatMap chunks).flatMap Chunk.chars

@[simp] theorem text_nil : text [] = [] := rfl

@[simp] theorem text_append (rs rs' : List Reading) : text (rs ++ rs') = text rs ++ text rs' := by
  simp [text]

theorem text_cons (r : Reading) (rs : List Reading) : text (r :: rs) = text [r] ++ text rs :=
  text_append [r] rs

theorem text_singleton (r : Reading) : text [r] = r.chunks.flatMap Chunk.chars := by simp [text]

/-- Where a token or diagnostic stands. -/
def span (r : Reading) : Span :=
  match r.item with
  | .ok t => t.span
  | .error d => d.span

/-- Is a diagnostic read? -/
def isError (r : Reading) : Bool :=
  match r.item with
  | .ok _ => false
  | .error _ => true

/-- Where a reading stands in a text: behind the text `u` there are some blanks, and behind these the
one chunk that it is read from. The end of the input has no chunk of its own. -/
structure Placed (u : List Char) (r : Reading) (blanks : List Chunk) (own : Option Chunk) : Prop where
  chunks : r.chunks = blanks ++ own.toList
  passed : ∀ chunk ∈ blanks, chunk.item? = none
  item : own.elim (∃ place, r.item = .ok (endToken place)) fun chunk => chunk.item? = some r.item
  span : r.span = ⟨.behind (u ++ blanks.flatMap Chunk.chars), .behind (u ++ text [r])⟩
  /-- No line ends among the blanks. -/
  level : lineBreaks (u ++ blanks.flatMap Chunk.chars) = lineBreaks u
  /-- A line ends with a line break only. -/
  lines : lineBreaks (u ++ text [r]) = lineBreaks u + (itemTally r.item).lines
  /-- A line break stands at the end of what it is read from. -/
  ended : (itemTally r.item).lines = 1 → Ended (text [r])

end Reading

/-! ### Counts -/

/-- Is the chunk a lexeme? -/
def Chunk.isMatched (chunk : Chunk) : Bool :=
  match chunk.shape with
  | .matched _ _ => true
  | .illegal _ => false

namespace ReadTally

/-- The counts of some readings, told from what they took. -/
def ofReadings (rs : List Reading) : ReadTally where
  chars := (Reading.text rs).length
  lexemes := (rs.flatMap Reading.chunks).countP Chunk.isMatched
  lines := lineBreaks (Reading.text rs)
  errors := rs.countP Reading.isError

end ReadTally

namespace Reading

theorem foldl_tally (sum : ReadTally) (chunks : List Chunk) :
    chunks.foldl (fun sum chunk => sum + chunk.tally) sum =
      ⟨sum.chars + (chunks.flatMap Chunk.chars).length,
        sum.lexemes + chunks.countP Chunk.isMatched, sum.lines, sum.errors⟩ := by
  induction chunks generalizing sum with
  | nil => rfl
  | cons chunk chunks ih =>
    have ht : sum + chunk.tally = ⟨sum.chars + chunk.chars.length,
        sum.lexemes + if chunk.isMatched then 1 else 0, sum.lines, sum.errors⟩ := by
      obtain ⟨shape, cursor⟩ := chunk
      cases shape <;> rfl
    rw [List.foldl_cons, ih, ht, List.countP_cons, List.flatMap_cons, List.length_append]
    simp only [ReadTally.mk.injEq, and_true]
    omega

theorem tally_eq (r : Reading) :
    r.tally = ⟨(text [r]).length, r.chunks.countP Chunk.isMatched, (itemTally r.item).lines,
      if r.isError then 1 else 0⟩ := by
  rw [tally, foldl_tally, text_singleton]
  unfold isError
  cases r.item with
  | ok t => simp [itemTally]
  | error d => simp [itemTally]

/-- A line ends with a chunk when its token is a line break. -/
theorem lines_of_item? {chunk : Chunk} {item : Except Diagnostic Token}
    (h : chunk.item? = some item) : (itemTally item).lines = chunk.lines := by
  obtain ⟨shape, cursor⟩ := chunk
  cases shape with
  | illegal c =>
    cases h
    rfl
  | matched rule lexeme =>
    obtain ⟨⟨kind, payload⟩, hm, rfl⟩ := Option.map_eq_some_iff.mp h
    cases rule with
    | whiteSpace => cases hm
    | nondecimal =>
      cases hm
      clear h
      cases nondecimalValue? lexeme <;> rfl
    | number =>
      cases hm
      clear h
      cases integerValue? 10 lexeme <;> rfl
    | _ =>
      cases hm
      rfl

theorem lines_of_blank {chunk : Chunk} (h : chunk.item? = none) : chunk.lines = 0 := by
  obtain ⟨shape, cursor⟩ := chunk
  cases shape with
  | illegal c => cases h
  | matched rule lexeme =>
    have hm := Option.map_eq_none_iff.mp h
    cases rule <;> first | rfl | cases hm

theorem chars_ne_nil_of_mem {names : NameGrammar} {source : String} {chunk : Chunk}
    (h : chunk ∈ (ofText names source).flatMap chunks) : chunk.chars ≠ [] := by
  rw [ofText, ofChunks, flatMap_chunks_readFrom, List.nil_append] at h
  obtain ⟨before, after, hc⟩ := List.append_of_mem h
  exact (Chunk.sliceOf_of_cut_eq hc).nonempty

theorem span_of_item? {chunk : Chunk} {r : Reading} (h : chunk.item? = some r.item) :
    r.span = chunk.span := by
  obtain ⟨shape, cursor⟩ := chunk
  obtain ⟨chunks, item⟩ := r
  cases shape with
  | illegal c =>
    obtain rfl : _ = item := Option.some.inj h
    rfl
  | matched rule lexeme =>
    obtain ⟨⟨kind, payload⟩, -, hi⟩ := Option.map_eq_some_iff.mp h
    obtain rfl : _ = item := hi
    cases payload <;> rfl

end Reading

/-! ### Readers -/

/-- A text that is read one item at a time. -/
structure Reader where
  /-- What is still to be read. -/
  rest : List Char
  cursor : Cursor := {}
  /-- Has the end of the input been read? -/
  ended : Bool := false
  tally : ReadTally := {}

namespace Reader

/-- The reader of a whole text. -/
def ofText (source : String) : Reader := { rest := source.toList }

/-- The next reading, when `blanks` have been passed over. -/
def read (names : NameGrammar) (tally : ReadTally) (blanks : List Chunk) (cursor : Cursor) :
    List Char → Reading × Reader
  | [] =>
    let r : Reading := ⟨blanks, .ok (Reading.endToken cursor)⟩
    (r, ⟨[], cursor.collapse, true, tally + r.tally⟩)
  | c :: rest =>
    let chunk := Chunk.first names cursor c rest
    let left := (c :: rest).drop chunk.chars.length
    match chunk.item? with
    | some item =>
      let r : Reading := ⟨blanks ++ [chunk], item⟩
      (r, ⟨left, chunk.cursor, false, tally + r.tally⟩)
    | none => read names tally (blanks ++ [chunk]) chunk.cursor left
termination_by text => text.length
decreasing_by
  obtain ⟨n, hn⟩ := Chunk.chars_first names cursor c rest
  rw [hn, List.length_drop, List.length_cons, List.length_cons]
  omega

/-- The next reading, if the end of the input has not been read. -/
def next (names : NameGrammar) (s : Reader) : Option Reading × Reader :=
  if s.ended then (none, s)
  else
    let (r, s) := read names s.tally [] s.cursor s.rest
    (some r, s)

/-- The reader after some calls. -/
def after (names : NameGrammar) : Nat → Reader → Reader
  | 0, s => s
  | n + 1, s => after names n (s.next names).2

/-- The readings still to come. -/
def readings (names : NameGrammar) (s : Reader) : List Reading :=
  if s.ended then []
  else Reading.readFrom [] s.cursor [] (Chunk.cutFrom names [] s.cursor 0 s.rest)

/-- Reading on demand makes the same readings as reading all at once. -/
theorem readFrom_eq_read (names : NameGrammar) (tally : ReadTally) (blanks : List Chunk)
    (cursor : Cursor) (text : List Char) :
    Reading.readFrom [] cursor blanks (Chunk.cutFrom names [] cursor 0 text) =
      (read names tally blanks cursor text).1 ::
        (read names tally blanks cursor text).2.readings names := by
  fun_induction read names tally blanks cursor text with
  | case1 blanks cursor r => simp [Chunk.cutFrom, Reading.readFrom, readings, r]
  | case2 blanks cursor c rest chunk left item hi r =>
    rw [Chunk.cutFrom_cons, Reading.readFrom, hi]
    show Reading.readFrom [_] _ _ _ = _
    rw [Reading.readFrom_eq_append]
    rfl
  | case3 blanks cursor c rest chunk left hi ih =>
    rw [Chunk.cutFrom_cons, Reading.readFrom, hi]
    exact ih

theorem readings_next (names : NameGrammar) (s : Reader) :
    s.readings names = (s.next names).1.toList ++ (s.next names).2.readings names := by
  unfold next
  split
  · rfl
  · rename_i h
    rw [readings, if_neg h, readFrom_eq_read names s.tally]
    rfl

theorem readings_ofText (names : NameGrammar) (source : String) :
    (ofText source).readings names = Reading.ofText names source := rfl

/-- What the next call returns is the first of the readings still to come. -/
theorem next_fst (names : NameGrammar) (s : Reader) :
    (s.next names).1 = (s.readings names).head? := by
  by_cases h : s.ended = true
  · simp [next, readings, h]
  · rw [readings_next, next, if_neg h]
    rfl

theorem readings_after (names : NameGrammar) (n : Nat) (s : Reader) :
    (after names n s).readings names = (s.readings names).drop n := by
  induction n generalizing s with
  | zero => rfl
  | succ n ih =>
    rw [after, ih, readings_next names s]
    by_cases h : s.ended = true
    · simp [next, readings, h]
    · simp [next, h]

/-! ### Places and counts after each call -/

/-- What is known of a reader that has taken some readings from a text. -/
structure Took (source : List Char) (taken : List Reading) (s : Reader) : Prop where
  whole : Reading.text taken ++ s.rest = source
  parts : Parts (Reading.text taken) s.rest
  stop : s.cursor.span.stop = .behind (Reading.text taken)
  tally : s.tally = .ofReadings taken

theorem took_ofText (source : String) : Took source.toList [] (ofText source) where
  whole := rfl
  parts := .nil_left _
  stop := rfl
  tally := rfl

/-- What is known after a reading behind the text `u`, in front of which `blanks` had been passed
over. -/
structure Step (u : List Char) (blanks : List Chunk) (text : List Char) (r : Reading) (s : Reader) :
    Prop where
  placed : ∃ blanks own, r.Placed u blanks own
  whole : Reading.text [r] ++ s.rest = blanks.flatMap Chunk.chars ++ text
  parts : Parts (u ++ Reading.text [r]) s.rest
  stop : s.cursor.span.stop = .behind (u ++ Reading.text [r])

theorem step_read (names : NameGrammar) (tally : ReadTally) {u : List Char} (blanks : List Chunk)
    (cursor : Cursor) (text : List Char) (hb : ∀ chunk ∈ blanks, chunk.item? = none)
    (hc : cursor.span.stop = .behind (u ++ blanks.flatMap Chunk.chars))
    (hp : Parts (u ++ blanks.flatMap Chunk.chars) text)
    (hl : lineBreaks (u ++ blanks.flatMap Chunk.chars) = lineBreaks u) :
    Step u blanks text (read names tally blanks cursor text).1
      (read names tally blanks cursor text).2 := by
  -- the text ends, a chunk is read, or a blank is passed over and joins those in front
  fun_induction read names tally blanks cursor text with
  | case1 blanks cursor r =>
    have ht : Reading.text [r] = blanks.flatMap Chunk.chars := Reading.text_singleton r
    refine ⟨⟨blanks, none, ?_, hb, ⟨cursor, rfl⟩, ?_, hl, ?_, nofun⟩, ?_, ?_, ?_⟩
    · simp [r]
    · rw [ht, ← hc]
      rfl
    · rw [ht, hl]
      rfl
    · rw [ht]
    · rw [ht]
      exact hp
    · rw [ht]
      exact hc
  | case2 blanks cursor c rest chunk left item hi r =>
    have hw : chunk.chars ++ left = c :: rest := Chunk.chars_first_append_drop cursor c rest
    have hf : chunk.Between (u ++ blanks.flatMap Chunk.chars) left := Chunk.between_first hc hp hw
    have ht : Reading.text [r] = blanks.flatMap Chunk.chars ++ chunk.chars := by
      simp [Reading.text_singleton, r]
    refine ⟨⟨blanks, some chunk, rfl, hb, hi, ?_, hl, ?_, fun h1 => ?_⟩, ?_, ?_, ?_⟩
    · rw [ht, ← List.append_assoc, ← hf.span]
      exact Reading.span_of_item? hi
    · rw [ht, ← List.append_assoc, hf.lines, hl, Reading.lines_of_item? hi]
    · rw [ht]
      exact (hf.ended (Reading.lines_of_item? hi ▸ h1)).append_left _
    · rw [ht, List.append_assoc]
      exact congrArg _ hw
    · rw [ht, ← List.append_assoc]
      exact hf.parts
    · rw [ht, ← List.append_assoc]
      exact congrArg Span.stop hf.span
  | case3 blanks cursor c rest chunk left hi ih =>
    have hw : chunk.chars ++ left = c :: rest := Chunk.chars_first_append_drop cursor c rest
    have hf : chunk.Between (u ++ blanks.flatMap Chunk.chars) left := Chunk.between_first hc hp hw
    have ht : u ++ (blanks ++ [chunk]).flatMap Chunk.chars =
        u ++ blanks.flatMap Chunk.chars ++ chunk.chars := by simp
    have hs := ih ?_ ?_ ?_ ?_
    · refine ⟨hs.placed, ?_, hs.parts, hs.stop⟩
      rw [hs.whole, List.flatMap_append, List.append_assoc, List.flatMap_singleton]
      exact congrArg _ hw
    · intro b hm
      rcases List.mem_append.mp hm with hm | hm
      · exact hb b hm
      · exact List.mem_singleton.mp hm ▸ hi
    · rw [ht]
      exact congrArg Span.stop hf.span
    · rw [ht]
      exact hf.parts
    · rw [ht, hf.lines, hl, Reading.lines_of_blank hi, Nat.add_zero]

theorem tally_read (names : NameGrammar) (tally : ReadTally) (blanks : List Chunk) (cursor : Cursor)
    (text : List Char) : (read names tally blanks cursor text).2.tally =
      tally + (read names tally blanks cursor text).1.tally := by
  fun_induction read names tally blanks cursor text with
  | case1 => rfl
  | case2 => rfl
  | case3 _ _ _ _ _ _ _ ih => exact ih

/-- A call keeps what is known, and the reading that it returns stands where the text says. -/
theorem Took.next {names : NameGrammar} {source : List Char} {taken : List Reading} {s s' : Reader}
    {r : Reading} (h : Took source taken s) (hn : s.next names = (some r, s')) :
    Took source (taken ++ [r]) s' ∧ ∃ blanks own, r.Placed (Reading.text taken) blanks own := by
  unfold Reader.next at hn
  split at hn
  · cases hn
  · obtain ⟨hr, hs'⟩ : (read names s.tally [] s.cursor s.rest).1 = r ∧
        (read names s.tally [] s.cursor s.rest).2 = s' := by simpa using hn
    -- no blanks are left from the call before
    have hu : Reading.text taken ++ [].flatMap Chunk.chars = Reading.text taken := by simp
    have hs := step_read names s.tally (u := Reading.text taken) [] s.cursor s.rest (by simp)
      (hu.symm ▸ h.stop) (hu.symm ▸ h.parts) (congrArg lineBreaks hu)
    have ht := tally_read names s.tally [] s.cursor s.rest
    rw [hr, hs'] at hs ht
    obtain ⟨blanks, own, hplaced⟩ := hs.placed
    refine ⟨⟨?_, ?_, ?_, ?_⟩, blanks, own, hplaced⟩
    · rw [Reading.text_append, List.append_assoc, hs.whole]
      exact h.whole
    · rw [Reading.text_append]
      exact hs.parts
    · rw [Reading.text_append]
      exact hs.stop
    · rw [ht, h.tally, Reading.tally_eq]
      unfold ReadTally.ofReadings
      rw [Reading.text_append, hplaced.lines, List.length_append, List.flatMap_append, List.countP_append,
        List.flatMap_singleton, List.countP_append, List.countP_singleton]
      rfl

theorem next_of_nil {names : NameGrammar} {s : Reader} (h : s.readings names = []) :
    s.next names = (none, s) := by
  by_cases he : s.ended = true
  · simp [next, he]
  · rw [readings_next, next, if_neg he] at h
    cases h

theorem took_after (names : NameGrammar) {source : List Char} (n : Nat) {taken : List Reading}
    {s : Reader} (h : Took source taken s) :
    Took source (taken ++ (s.readings names).take n) (after names n s) := by
  -- one call more at the front: a reader at its end stays as it is
  induction n generalizing taken s with
  | zero => simpa [after] using h
  | succ n ih =>
    rw [after]
    cases hn : s.next names with
    | mk r? s' =>
      have hr := readings_next names s
      rw [hn] at hr
      cases r? with
      | none =>
        have hnil : s.readings names = [] := by
          have := next_fst names s
          rw [hn] at this
          exact List.head?_eq_none_iff.mp this.symm
        rw [hnil, List.take_nil]
        rw [next_of_nil hnil] at hn
        obtain rfl := (Prod.mk.inj hn).2
        have := ih h
        rwa [hnil, List.take_nil] at this
      | some r =>
        have := ih (h.next hn).1
        rw [hr]
        simpa using this

/-- The counts of the readings are those of the reader after each of them. -/
theorem runningTallies_readings (names : NameGrammar) (s : Reader) :
    Reading.runningTallies s.tally (s.readings names) =
      (List.range (s.readings names).length).map fun i => (after names (i + 1) s).tally := by
  -- on the number of readings still to come
  induction hl : (s.readings names).length generalizing s with
  | zero =>
    rw [List.length_eq_zero_iff.mp hl]
    rfl
  | succ n ih =>
    by_cases he : s.ended = true
    · simp [readings, he] at hl
    · have hn := next_fst names s
      have hr := readings_next names s
      have ht : (s.next names).2.tally = s.tally + ((s.next names).1.elim {} Reading.tally) := by
        simp [next, he, tally_read]
      cases hs : s.next names with
      | mk r? s' =>
        rw [hs] at hr hn ht
        cases r? with
        | none => simp [List.head?_eq_none_iff.mp hn.symm] at hl
        | some r =>
          have hr : s.readings names = r :: s'.readings names := hr
          have hl : (s'.readings names).length = n := by simpa [hr] using hl
          have ht : s'.tally = s.tally + r.tally := ht
          rw [hr, Reading.runningTallies, ← ht, ih s' hl, List.range_succ_eq_map, List.map_cons,
            List.map_map]
          simp [after, hs]

theorem placed_of_getElem? {names : NameGrammar} {source : String} {n : Nat} {r : Reading}
    (h : (Reading.ofText names source)[n]? = some r) : ∃ blanks own,
      r.Placed (Reading.text ((Reading.ofText names source).take n)) blanks own := by
  have htook := took_after names n (took_ofText source)
  have hn := next_fst names (after names n (ofText source))
  rw [readings_after, readings_ofText, List.head?_drop, h] at hn
  cases hs : (after names n (ofText source)).next names with
  | mk r? s' =>
    rw [hs] at hn
    obtain rfl : r? = some r := hn
    exact (htook.next hs).2

/-- What is read behind a line break is what a text that starts there is read as. -/
theorem exists_of_ofText_eq {names : NameGrammar} {source : String} {done more : List Reading}
    {r : Reading} {t : Token} (h : Reading.ofText names source = done ++ r :: more)
    (hr : r.item = .ok t) (ht : t.kind = .newLine) :
    ∃ front back : String, ∃ n, source = front ++ back ∧
      front.toList = Reading.text (done ++ [r]) ∧ Ended front.toList ∧
      Parts front.toList back.toList ∧
      more = (Reading.ofText names back).map (Reading.down (lineBreaks front.toList) n) := by
  have htake : (Reading.ofText names source).take (done.length + 1) = done ++ [r] := by
    rw [h, List.append_cons]
    exact List.take_left' (List.length_append ..)
  have htook := took_after names (done.length + 1) (took_ofText source)
  rw [readings_ofText, List.nil_append, htake] at htook
  have hmore := readings_after names (done.length + 1) (ofText source)
  rw [readings_ofText, h, ← List.drop_drop, List.drop_left, List.drop_one, List.tail_cons] at hmore
  obtain ⟨blanks, own, hp⟩ := placed_of_getElem? (n := done.length) (r := r) (by rw [h]; simp)
  have hend : Ended (Reading.text (done ++ [r])) := by
    rw [Reading.text_append]
    refine (hp.ended ?_).append_left _
    rw [hr, Reading.itemTally, if_pos ht]
  generalize after names (done.length + 1) (ofText source) = s at htook hmore
  refine ⟨String.ofList (Reading.text (done ++ [r])), String.ofList s.rest, s.cursor.offset, ?_,
    String.toList_ofList, by rwa [String.toList_ofList], ?_, ?_⟩
  · rw [← String.ofList_append, htook.whole, String.ofList_toList]
  · rw [String.toList_ofList, String.toList_ofList]
    exact htook.parts
  · have hne : s.ended = false := by
      obtain ⟨rs, taken, place, ho, -⟩ := Reading.exists_of_ofText names source
      cases he : s.ended with
      | false => rfl
      | true =>
        -- the line break would be the last reading, which is the end of the input
        rw [readings, if_pos he] at hmore
        rw [ho, ← hmore] at h
        obtain ⟨-, hlast⟩ := List.append_inj' h rfl
        obtain rfl := List.singleton_inj.mp hlast
        cases hr
        cases ht
    have hplace : s.cursor.collapse = ({} : Cursor).collapse.down
        (lineBreaks (Reading.text (done ++ [r]))) s.cursor.offset := by
      show (⟨_, ⟨s.cursor.span.stop, s.cursor.span.stop⟩⟩ : Cursor) = ⟨0 + _, ⟨_, _⟩⟩
      rw [htook.stop, Position.behind_of_ended hend, Nat.zero_add]
      rfl
    rw [← hmore, readings, hne, String.toList_ofList]
    have := Reading.ofText_down names hplace (String.ofList s.rest)
    rw [String.toList_ofList] at this
    exact this

/-! ### The whole text -/

/-- The readings of a text are made of chunks that are not empty and together are the text; only the
last one is the end of the input, and behind it nothing is read. After any number of calls the
reader knows its place and what it has counted, and the next reading stands where the text says. -/
theorem covers_ofText (names : NameGrammar) (source : String) :
    (∀ chunk ∈ (Reading.ofText names source).flatMap Reading.chunks, chunk.chars ≠ []) ∧
    Reading.text (Reading.ofText names source) = source.toList ∧
    (∃ front last t, Reading.ofText names source = front ++ [last] ∧
      last.item = .ok t ∧ t.kind = .endOfInput ∧ t.lexeme = "" ∧
      ∀ r ∈ front, ∀ t, r.item = .ok t → t.kind ≠ .endOfInput) ∧
    Reading.runningTallies {} (Reading.ofText names source) =
      (List.range (Reading.ofText names source).length).map
        (fun i => (after names (i + 1) (ofText source)).tally) ∧
    ∀ n, ((after names n (ofText source)).next names).1 = (Reading.ofText names source)[n]? ∧
      ((Reading.ofText names source).length ≤ n →
        (after names n (ofText source)).next names = (none, after names n (ofText source))) ∧
      Took source.toList ((Reading.ofText names source).take n) (after names n (ofText source)) ∧
      (after names n (ofText source)).cursor.span.stop.line =
        (after names n (ofText source)).tally.lines + 1 ∧
      ∀ r, (Reading.ofText names source)[n]? = some r → ∃ blanks own,
        r.Placed (Reading.text ((Reading.ofText names source).take n)) blanks own := by
  have hdrop := fun n => readings_after names n (ofText source)
  rw [readings_ofText] at hdrop
  have htook := fun n => took_after names n (took_ofText source)
  rw [readings_ofText] at htook
  have hnext : ∀ n, ((after names n (ofText source)).next names).1 =
      (Reading.ofText names source)[n]? := by
    intro n
    rw [next_fst, hdrop, List.head?_drop]
  refine ⟨?_, Reading.flatMap_chars_ofText names source, ?_,
    runningTallies_readings names (ofText source), fun n => ⟨hnext n, ?_, htook n, ?_, ?_⟩⟩
  · exact fun chunk hm => Reading.chars_ne_nil_of_mem hm
  · obtain ⟨front, taken, place, h, hp⟩ := Reading.exists_of_ofText names source
    refine ⟨front, _, _, h, rfl, rfl, rfl, fun r hr t ht => ?_⟩
    have := hp r hr
    rw [Reading.Proper, ht] at this
    exact this.2
  · intro hn
    apply next_of_nil
    rw [hdrop, List.drop_eq_nil_of_le hn]
  · rw [(htook n).stop, (htook n).tally, Nat.add_comm]
    rfl
  · exact fun r hr => placed_of_getElem? hr

end Reader

end LineCalc
