import LineCalc.Proofs.Reading.Words
import LineCalc.Proofs.Transcript.Names

/-!
# Memory slots as names

A text in which only memory slots are names, and nothing is illegal, is read and run in the same way
when names are free. So is a text with free names of which each one is that of a slot, when only these
are names. A run with memory slots binds nothing else.
-/

namespace LineCalc

open Grammar

variable {standIn : Span → Number} {b b' : Bindings} {s t : Script} {c c' : Bool} {os : List Output}

namespace Reading

/-- No character of the text is illegal. -/
def Legal (names : NameGrammar) (source : String) : Prop :=
  ∀ d ∈ diagnostics (ofText names source), d.isIllegal = false

theorem legal_iff {names : NameGrammar} {source : String} :
    Legal names source ↔ ∀ i ∈ items names {} source.toList, isIllegal i = false := by
  constructor
  · intro h i hi
    obtain ⟨r, hr, rfl⟩ := List.mem_map.mp hi
    cases hd : r.item with
    | ok t => rfl
    | error d => exact h d (mem_diagnostics.mpr ⟨r, hr, hd⟩)
  · intro h d hd
    obtain ⟨r, hr, hi⟩ := mem_diagnostics.mp hd
    exact h (.error d) (hi ▸ List.mem_map_of_mem hr)

/-- Where only slots are names, each name is that of a slot. -/
theorem lexeme_mem_slotNames (source : String) :
    ∀ t ∈ tokens (ofText .memorySlots source), t.kind = .ident → t.lexeme ∈ slotNames := by
  intro t ht hk
  obtain ⟨r, hr, hi⟩ := mem_tokens.mp ht
  obtain ⟨w, rest, hlexeme, -, hf⟩ :=
    exists_of_ident .memorySlots {} source.toList (hi ▸ List.mem_map_of_mem hr) hk
  obtain ⟨name, hname, hword⟩ := List.exists_of_findSome?_eq_some (Rule.length?_of_first? hf)
  obtain ⟨hl, hp⟩ := eq_of_wordLength? hword
  have hw : name.toList = w :=
    (List.prefix_of_prefix_length_le hp (List.prefix_append w rest) (Nat.le_of_eq hl.symm)).eq_of_length
      hl.symm
  rwa [hlexeme, ← hw, String.ofList_toList]

end Reading

namespace Chunk

open Reading

variable {place : Cursor} {text : List Char}

/-- What is cut where only slots are names is cut where names are free. -/
theorem cutFrom_free_of_slots (place : Cursor) (text : List Char)
    (h : ∀ i ∈ items .memorySlots place text, isIllegal i = false) :
    cutFrom .free [] place 0 text = cutFrom .memorySlots [] place 0 text := by
  induction place, text using cut_induction .memorySlots with
  | nil place => rfl
  | illegal place c rest hf ih =>
    rw [items_illegal hf] at h
    cases h _ List.mem_cons_self
  | matched place rule w rest hf ih =>
    rw [items_matched hf] at h
    rw [cutFrom_matched hf, cutFrom_matched (Rule.first?_free_of_slots hf),
      ih fun i hi => h i (List.mem_append_right _ hi)]

/-- And the other way round, if each name is that of a slot. -/
theorem cutFrom_slots_of_free (place : Cursor) (text : List Char)
    (h : ∀ i ∈ items .free place text, isIllegal i = false)
    (hslot : ∀ t, .ok t ∈ items .free place text → t.kind = .ident → t.lexeme ∈ slotNames) :
    cutFrom .memorySlots [] place 0 text = cutFrom .free [] place 0 text := by
  induction place, text using cut_induction .free with
  | nil place => rfl
  | illegal place c rest hf ih =>
    rw [items_illegal hf] at h
    cases h _ List.mem_cons_self
  | matched place rule w rest hf ih =>
    rw [items_matched hf] at h hslot
    have hslots : Rule.first? .memorySlots (w ++ rest) = some (rule, w.length) := by
      refine Rule.first?_slots_of_free hf ?_
      rintro rfl
      refine ⟨hslot _ (List.mem_append_left _ List.mem_cons_self) rfl, ?_⟩
      -- a wide character behind the name would be illegal
      refine Bool.of_not_eq_false fun he => ?_
      obtain ⟨c, rest', rfl, hc, hn⟩ := exists_wide he fun c hc =>
        Rule.continuesName_of_length? (.inr rfl) (Rule.length?_of_first? hf) hc
      have hnone : Rule.first? .free (c :: rest') = none := Rule.first?_of_wide hc hn rest'
      have hwide := items_illegal hnone (place.collapse.advanceOver w)
      cases h _ (List.mem_append_right _ (hwide ▸ List.mem_cons_self))
    rw [cutFrom_matched hf, cutFrom_matched hslots,
      ih (fun i hi => h i (List.mem_append_right _ hi)) fun t ht => hslot t (List.mem_append_right _ ht)]

end Chunk

namespace Reading

theorem ofText_free_of_slots {source : String} (h : Legal .memorySlots source) :
    ofText .free source = ofText .memorySlots source :=
  congrArg ofChunks (Chunk.cutFrom_free_of_slots {} source.toList (legal_iff.mp h))

theorem ofText_slots_of_free {source : String} (h : Legal .free source)
    (hslot : ∀ t ∈ tokens (ofText .free source), t.kind = .ident → t.lexeme ∈ slotNames) :
    ofText .memorySlots source = ofText .free source := by
  refine congrArg ofChunks (Chunk.cutFrom_slots_of_free {} source.toList (legal_iff.mp h) ?_)
  intro t ht hk
  obtain ⟨r, hr, hi⟩ := List.mem_map.mp ht
  exact hslot t (mem_tokens.mpr ⟨r, hr, hi⟩) hk

/-- Nothing is illegal where only slots are names, if and only if nothing is illegal where names are
free, and each name is that of a slot. -/
theorem legal_slots_iff (source : String) : Legal .memorySlots source ↔ Legal .free source ∧
    ∀ t ∈ tokens (ofText .free source), t.kind = .ident → t.lexeme ∈ slotNames := by
  constructor
  · intro h
    rw [Legal, ofText_free_of_slots h]
    exact ⟨h, lexeme_mem_slotNames source⟩
  · rintro ⟨h, hslot⟩
    rwa [Legal, ofText_slots_of_free h hslot]

end Reading

/-! ### Runs -/

/-- Names that a run binds are tokens of the text. -/
theorem Session.exists_ident_of_stored (config : Config) (bindings : Bindings) (source : String) :
    ∀ e ∈ (Session.run ⟨config, bindings⟩ source).1.log.filterMap Event.stored?,
      ∃ t ∈ Reading.tokens (Reading.ofText config.names source), t.kind = .ident ∧ t.lexeme = e.1 := by
  obtain ⟨stores, hstores, -, hmem⟩ := Session.exists_stores config bindings source
  rw [hstores]
  intro e he
  obtain ⟨t, ht, hname⟩ := List.mem_filterMap.mp (hmem e he)
  refine ⟨t, ht, ?_⟩
  unfold Token.name? at hname
  split at hname
  · rename_i hk hp
    obtain ⟨r, hr, hi⟩ := Reading.mem_tokens.mp ht
    obtain ⟨w, rest, hlexeme, hpayload, -⟩ :=
      Reading.exists_of_ident config.names {} source.toList (hi ▸ List.mem_map_of_mem hr) hk
    refine ⟨hk, hlexeme.trans ?_⟩
    rw [← Option.some.inj hname]
    exact Payload.ident.inj (hpayload.symm.trans hp)
  · cases hname

/-- **Memory slots are names among others.** Whatever the text is: nothing in it is illegal where only
slots are names, if and only if nothing is illegal where names are free and each name is that of a slot.
Then the same is read, chunk by chunk and place by place, and every session runs the text in the same
way. Where only slots are names no other name is read, and a run binds nothing but slots. -/
theorem Session.run_slots (config : Config) (bindings : Bindings) (source : String) :
    let free := Reading.ofText .free source
    let slots := Reading.ofText .memorySlots source
    let run := fun names => Session.run ⟨{ config with names := names }, bindings⟩ source
    let stores := (run .memorySlots).1.log.filterMap Event.stored?
    (Reading.Legal .memorySlots source ↔ Reading.Legal .free source ∧
      ∀ t ∈ Reading.tokens free, t.kind = .ident → t.lexeme ∈ slotNames) ∧
    (Reading.Legal .memorySlots source → free = slots ∧ (run .free).1 = (run .memorySlots).1 ∧
      (run .free).2.bindings = (run .memorySlots).2.bindings) ∧
    (∀ t ∈ Reading.tokens slots, t.kind = .ident → t.lexeme ∈ slotNames) ∧
    (run .memorySlots).2.bindings = bindings.setAll stores ∧ ∀ e ∈ stores, e.1 ∈ slotNames := by
  intro free slots run stores
  refine ⟨Reading.legal_slots_iff source, fun h => ?_, Reading.lexeme_mem_slotNames source, ?_, ?_⟩
  · have hread : free = slots := Reading.ofText_free_of_slots h
    obtain ⟨os, c, b', t, hruns, hrun⟩ :=
      Session.exists_run_eq { config with names := .memorySlots } bindings source
    have hruns : Runs config.keepGoing config.standIn bindings (.ofText .free source) os c b' t := by
      rwa [Script.ofText, show Reading.ofText .free source = _ from hread]
    have hrun : run .memorySlots = _ := hrun
    have hrun' : run .free = _ := Session.run_eq_of_runs hruns
    rw [hrun, hrun']
    exact ⟨hread, rfl, rfl⟩
  · obtain ⟨_, rfl, hbindings, -⟩ :=
      Session.exists_stores { config with names := .memorySlots } bindings source
    exact hbindings
  · intro e he
    obtain ⟨t, ht, hk, hlexeme⟩ :=
      Session.exists_ident_of_stored { config with names := .memorySlots } bindings source e he
    exact hlexeme ▸ Reading.lexeme_mem_slotNames source t ht hk

/-- A slot that is assigned and read. -/
theorem Session.run_slots_assigned :
    let source := "MEM_1 = 2\nMEM_1"
    let run := fun names => Session.run ⟨{ names := names }, {}⟩ source
    Reading.Legal .memorySlots source ∧
    Reading.ofText .free source = Reading.ofText .memorySlots source ∧
    (run .free).1 = (run .memorySlots).1 ∧
    (run .free).2.bindings = (run .memorySlots).2.bindings ∧
    (run .memorySlots).2.bindings.names = ["MEM_1"] := by
  intro source run
  have hlegal : Reading.Legal .memorySlots source := by
    show ∀ d ∈ Reading.diagnostics (Reading.ofText .memorySlots source), d.isIllegal = false
    decide +kernel
  obtain ⟨-, hsame, -⟩ := Session.run_slots {} {} source
  obtain ⟨hread, hrun, hbindings⟩ := hsame hlegal
  exact ⟨hlegal, hread, hrun, hbindings, by decide +kernel⟩

end LineCalc
