import LineCalc.Proofs.Progress
import LineCalc.Proofs.Reading.Chunks

/-!
# What is read

Every token of a text is well-formed, and only the last one is the end of the input. Every
diagnostic among the readings is a lexical one.
-/

namespace LineCalc

namespace Chunk

variable {lexeme : List Char} {rule : Rule} {kind : TokenKind} {payload : Payload} {span : Span}

/-- A token has the payload that goes with its kind. -/
theorem wellFormed_of_meaning? (hd : rule.Decodable lexeme)
    (h : meaning? lexeme rule = some (kind, some payload)) (name : String) (span : Span) :
    (⟨kind, payload, name, span⟩ : Token).WellFormed ∧ kind ≠ .endOfInput := by
  cases rule with
  | whiteSpace => cases h
  | newLine | equals | plus | minus | asterisk | slash | leftParen | rightParen =>
    cases h
    exact ⟨rfl, by decide⟩
  | comment | ident | scientific | float =>
    cases h
    exact ⟨⟨_, rfl⟩, by decide⟩
  | nondecimal | number =>
    simp only [meaning?, Option.some.injEq, Prod.mk.injEq, Option.map_eq_some_iff] at h
    obtain ⟨rfl, n, -, rfl⟩ := h
    exact ⟨⟨n, rfl⟩, by decide⟩
  | func =>
    obtain ⟨f, hf⟩ := hd
    simp only [meaning?, hf, Option.elim_some, Option.some.injEq, Prod.mk.injEq] at h
    obtain ⟨rfl, rfl⟩ := h
    exact ⟨⟨f, rfl⟩, by decide⟩

theorem wellFormed_of_item? {names : NameGrammar} {source : String} {chunk : Chunk} {t : Token}
    (hc : chunk ∈ cut names source.toList) (h : chunk.item? = some (.ok t)) :
    t.WellFormed ∧ t.kind ≠ .endOfInput := by
  obtain ⟨before, after, hc⟩ := List.append_of_mem hc
  have hs := sliceOf_of_cut_eq hc
  unfold item? at h
  split at h
  · rename_i rule lexeme hshape
    obtain ⟨⟨kind, payload⟩, hm, h⟩ := Option.map_eq_some_iff.mp h
    cases payload with
    | none => cases h
    | some payload =>
      cases h
      exact wellFormed_of_meaning? (hs.lexeme rule lexeme hshape).1 hm _ _
  · cases h

theorem isLexical_of_item? {chunk : Chunk} {d : Diagnostic} (h : chunk.item? = some (.error d)) :
    d.isLexical = true := by
  unfold item? at h
  split at h
  · obtain ⟨⟨kind, payload⟩, hm, h⟩ := Option.map_eq_some_iff.mp h
    cases payload with
    | none => cases h; rfl
    | some payload => cases h
  · cases h
    rfl

end Chunk

namespace Reading

/-- Each reading but the last is made of a chunk. -/
theorem exists_of_readFrom (stop : Cursor) (blanks chunks : List Chunk) :
    ∃ rs taken place, readFrom [] stop blanks chunks = rs ++ [⟨taken, .ok (endToken place)⟩] ∧
      ∀ r ∈ rs, ∃ chunk ∈ chunks, chunk.item? = some r.item := by
  induction chunks generalizing stop blanks with
  | nil => exact ⟨[], blanks, stop, rfl, by simp⟩
  | cons chunk rest ih =>
    rw [readFrom]
    split
    · rename_i item hi
      obtain ⟨rs, taken, place, h, hr⟩ := ih chunk.cursor []
      refine ⟨⟨blanks ++ [chunk], item⟩ :: rs, taken, place, ?_, ?_⟩
      · rw [readFrom_eq_append, h]
        rfl
      · intro r hm
        obtain rfl | hm := List.mem_cons.mp hm
        · exact ⟨chunk, by simp, hi⟩
        · obtain ⟨c, hc, hci⟩ := hr r hm
          exact ⟨c, List.mem_cons_of_mem _ hc, hci⟩
    · obtain ⟨rs, taken, place, h, hr⟩ := ih chunk.cursor (blanks ++ [chunk])
      refine ⟨rs, taken, place, h, fun r hm => ?_⟩
      obtain ⟨c, hc, hci⟩ := hr r hm
      exact ⟨c, List.mem_cons_of_mem _ hc, hci⟩

/-- A reading that is not the last one of a text: a token that is well-formed and not the end of the
input, or a lexical diagnostic. -/
def Proper (r : Reading) : Prop :=
  match r.item with
  | .ok t => t.WellFormed ∧ t.kind ≠ .endOfInput
  | .error d => d.isLexical = true

/-- The readings of a text are proper, up to the last one, which is the end of the input. -/
theorem exists_of_ofText (names : NameGrammar) (source : String) :
    ∃ rs taken place, ofText names source = rs ++ [⟨taken, .ok (endToken place)⟩] ∧
      ∀ r ∈ rs, r.Proper := by
  obtain ⟨rs, taken, place, h, hr⟩ := exists_of_readFrom {} [] (Chunk.cut names source.toList)
  refine ⟨rs, taken, place, h, fun r hm => ?_⟩
  obtain ⟨chunk, hc, hi⟩ := hr r hm
  unfold Proper
  split
  · rename_i t ht
    exact Chunk.wellFormed_of_item? hc (ht ▸ hi)
  · rename_i d hd
    exact Chunk.isLexical_of_item? (hd ▸ hi)

theorem mem_tokens {rs : List Reading} {t : Token} :
    t ∈ tokens rs ↔ ∃ r ∈ rs, r.item = .ok t := by
  rw [tokens, List.mem_filterMap]
  constructor
  · rintro ⟨r, hr, ht⟩
    refine ⟨r, hr, ?_⟩
    unfold token? at ht
    cases hi : r.item with
    | ok t' =>
      rw [hi] at ht
      rw [Option.some.inj ht]
    | error d =>
      rw [hi] at ht
      cases ht
  · rintro ⟨r, hr, ht⟩
    exact ⟨r, hr, by rw [token?, ht]; rfl⟩

theorem mem_diagnostics {rs : List Reading} {d : Diagnostic} :
    d ∈ diagnostics rs ↔ ∃ r ∈ rs, r.item = .error d := by
  rw [diagnostics, List.mem_filterMap]
  constructor
  · rintro ⟨r, hr, hd⟩
    refine ⟨r, hr, ?_⟩
    unfold diagnostic? at hd
    cases hi : r.item with
    | ok t =>
      rw [hi] at hd
      cases hd
    | error d' =>
      rw [hi] at hd
      rw [Option.some.inj hd]
  · rintro ⟨r, hr, hd⟩
    exact ⟨r, hr, by rw [diagnostic?, hd]⟩

theorem length_tokens_le (rs : List Reading) : (tokens rs).length ≤ rs.length :=
  List.length_filterMap_le token? rs

end Reading

end LineCalc
