import Pgify.Proofs.HiddenText
import Pgify.Proofs.LexicalGrammar

/-! # Spans of tokens as characters

The lexical grammar is about bytes, and what is known of strings, names and comments about
characters. A byte is one character, so a span says the same in either way.
-/

namespace Pgify.TokenSpans

open Pgify.Model SpanLanguage Lexical TokenLanguages

variable {input span rest : List UInt8}

/-! ## Bytes and characters -/

theorem charOf_literal {d : Char} (ascii : d.toNat < 256) : charOf d.toUInt8 = d :=
  (charOf_eq_iff ascii).mpr rfl

/-- Characters of an input around one of them, as bytes. -/
theorem bytes_of_split {d : Char} (ascii : d.toNat < 256) {front back : List Char}
    (split : input.map charOf = front ++ d :: back) :
    ∃ body rest, input = body ++ d.toUInt8 :: rest ∧ body.map charOf = front ∧
      rest.map charOf = back := by
  obtain ⟨body, behind, rfl, front, own⟩ := List.map_eq_append_iff.mp split
  obtain ⟨c, rest, rfl, first, back⟩ := List.map_eq_cons_iff.mp own
  rw [(charOf_eq_iff ascii).mp first]
  exact ⟨body, rest, rfl, front, back⟩

theorem eq_of_map_charOf {chars : List Char} (same : span.map charOf = chars) :
    span = chars.map Char.toUInt8 := by
  have own : span.map (Char.toUInt8 ∘ charOf) = span.map id :=
    List.map_congr_left fun c _ => toUInt8_charOf c
  rw [← same, List.map_map, own, List.map_id]

theorem mem_map_charOf {d : Char} (ascii : d.toNat < 256) :
    d ∈ span.map charOf ↔ d.toUInt8 ∈ span := by
  simp only [List.mem_map, charOf_eq_iff ascii, exists_eq_right]

/-- A pair in the text of a span is one of its bytes. -/
theorem pair_infix_iff {a b : Char} (first : a.toNat < 256) (second : b.toNat < 256) :
    [a, b] <:+: span.map charOf ↔ [a.toUInt8, b.toUInt8] <:+: span := by
  constructor
  · rintro ⟨front, back, same⟩
    obtain ⟨before, after, rfl, front, -⟩ := List.map_eq_append_iff.mp same.symm
    obtain ⟨before, pair, rfl, -, own⟩ := List.map_eq_append_iff.mp front
    obtain ⟨c, _, rfl, left, own⟩ := List.map_eq_cons_iff.mp own
    obtain ⟨d, _, rfl, right, own⟩ := List.map_eq_cons_iff.mp own
    obtain rfl := List.map_eq_nil_iff.mp own
    rw [(charOf_eq_iff first).mp left, (charOf_eq_iff second).mp right]
    exact ⟨before, after, rfl⟩
  · rintro ⟨before, after, rfl⟩
    refine ⟨before.map charOf, after.map charOf, ?_⟩
    rw [List.map_append, List.map_append, List.map_cons, List.map_cons,
      (charOf_eq_iff first).mpr rfl, (charOf_eq_iff second).mpr rfl]
    rfl

/-! ## Spans -/

theorem enclosed_iff {quote : Char} : Lexical.enclosed quote span rest ↔
    ∃ content, span = quote.toUInt8 :: (content ++ [quote.toUInt8]) ∧ quote.toUInt8 ∉ content := by
  constructor
  · rintro ⟨_, _, rfl, opening, content, _, rfl, inside, closing⟩
    rw [single_isCh_iff.mp opening, single_isCh_iff.mp closing]
    refine ⟨content, rfl, fun member => ?_⟩
    simpa [isCh] using inside.1 _ member
  · rintro ⟨content, rfl, absent⟩
    refine ⟨[quote.toUInt8], content ++ [quote.toUInt8], rfl, single_isCh_iff.mpr rfl, content,
      [quote.toUInt8], rfl, ⟨fun c member => ?_, ?_⟩, single_isCh_iff.mpr rfl⟩
    · have other : c ≠ quote.toUInt8 := fun same => absent (same ▸ member)
      simpa [isCh] using other
    · simp [isCh]

theorem isLineCh_iff {c : UInt8} :
    isLineCh c = true ↔ ¬ (charOf c = '\n' ∨ charOf c = '\r') := by
  rw [charOf_eq_iff (by decide), charOf_eq_iff (by decide)]
  simp [isLineCh]

theorem line_iff : Lexical.line span rest ↔ HiddenText.Line (span.map charOf) := by
  constructor
  · rintro ⟨text, _, rfl, oneLine, return', newline, rfl, carriage, last⟩
    obtain rfl := single_isCh_iff.mp last
    have ending : return' = [] ∨ return' = ['\r'.toUInt8] := by
      rw [SpanLanguage.optional, choice] at carriage
      split at carriage
      · exact Or.inr (single_isCh_iff.mp carriage)
      · exact Or.inl carriage
    refine ⟨text.map charOf, (return' ++ ['\n'.toUInt8]).map charOf, List.map_append, ?_, ?_⟩
    · rcases ending with rfl | rfl
      · exact Or.inl rfl
      · exact Or.inr rfl
    · intro c member
      obtain ⟨d, own, rfl⟩ := List.mem_map.mp member
      exact isLineCh_iff.mp (oneLine.1 d own)
  · rintro ⟨_, ending, same, ends, oneLine⟩
    obtain ⟨text, back, rfl, rfl, behind⟩ := List.map_eq_append_iff.mp same
    have inside (c : UInt8) (own : c ∈ text) : isLineCh c = true :=
      isLineCh_iff.mpr (oneLine _ (List.mem_map_of_mem own))
    rcases ends with rfl | rfl
    · obtain rfl := eq_of_map_charOf behind
      refine ⟨text, _, rfl, ⟨inside, fun c next => ?_⟩, [], ['\n'.toUInt8], rfl, ?_,
        single_isCh_iff.mpr rfl⟩
      · obtain rfl := Option.some.inj next
        rfl
      · rw [SpanLanguage.optional, choice, if_neg (by exact Bool.false_ne_true)]
        rfl
    · obtain rfl := eq_of_map_charOf behind
      refine ⟨text, _, rfl, ⟨inside, fun c next => ?_⟩, ['\r'.toUInt8], ['\n'.toUInt8], rfl, ?_,
        single_isCh_iff.mpr rfl⟩
      · obtain rfl := Option.some.inj next
        rfl
      · rw [SpanLanguage.optional, choice, if_pos (by rfl)]
        exact single_isCh_iff.mpr rfl

/-- Up to the first closer. -/
theorem upTo_iff : upTo (bytesOf "*/") span rest ↔
    ∃ inner, span = inner ++ bytesOf "*/" ∧ ¬ ['*', '/'] <:+: inner.map charOf ++ ['*'] := by
  have closer : bytesOf "*/" = ['*'.toUInt8] ++ ['/'.toUInt8] := rfl
  have front (inner : List UInt8) :
      inner.map charOf ++ ['*'] = (inner ++ ['*'.toUInt8]).map charOf := by
    rw [List.map_append]
    rfl
  constructor
  · rintro ⟨inner, rfl, only⟩
    refine ⟨inner, rfl, fun early => ?_⟩
    rw [front, pair_infix_iff (by decide) (by decide)] at early
    obtain ⟨before, after, split⟩ := early
    have shifted : inner ++ bytesOf "*/" = before ++ bytesOf "*/" ++ (after ++ ['/'.toUInt8]) := by
      rw [closer, ← List.append_assoc, ← split, List.append_assoc]
      rfl
    exact absurd (only _ _ shifted) (by simp)
  · rintro ⟨inner, rfl, first⟩
    refine ⟨inner, rfl, fun before after split => ?_⟩
    rcases List.eq_nil_or_concat after with rfl | ⟨after, last, rfl⟩
    · rfl
    · rw [front, pair_infix_iff (by decide) (by decide)] at first
      have shifted : inner ++ ['*'.toUInt8] ++ ['/'.toUInt8] =
          before ++ ['*'.toUInt8, '/'.toUInt8] ++ after ++ [last] := by
        rw [List.concat_eq_append] at split
        rw [List.append_assoc, List.append_assoc]
        exact split
      exact absurd ⟨before, after, (List.append_inj_left' shifted rfl).symm⟩ first

end Pgify.TokenSpans
