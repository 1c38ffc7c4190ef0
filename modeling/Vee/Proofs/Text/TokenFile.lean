import Vee.Proofs.Effect
import Vee.Proofs.Text.Lexing
import Vee.Proofs.Text.Separation
import Vee.Token.File

/-! # Tokens come back from their file

A line of a token file holds a text if the text is clean: not empty, without a line feed, and with no blank at either
end. Tokens with such texts, and no others, are read back as they were written. What is lexed or read has clean texts.
-/

namespace Vee.Token

set_option autoImplicit false

open Text (Solid Trimmed isBlank)

/-- A token whose text a line can hold. -/
structure Clean (t : Token) : Prop where
  nonempty : t.text ≠ ""
  feedless : '\n' ∉ t.text.toList
  trimmed : Trimmed t.text.toList

instance (t : Token) : Decidable t.Clean :=
  decidable_of_iff (t.text ≠ "" ∧ '\n' ∉ t.text.toList ∧ Trimmed t.text.toList)
    ⟨fun h => ⟨h.1, h.2.1, h.2.2⟩, fun h => ⟨h.nonempty, h.feedless, h.trimmed⟩⟩

/-! ## Texts of tokens -/

theorem Spelled.solid {t : Token} (h : t.Spelled) : Solid t.text.toList := by
  cases h with
  | @fixed kind text h => cases kind <;> cases h <;> decide
  | number hNe h =>
    rw [String.toList_ofList]
    refine ⟨hNe, fun c hMem => Text.isBlank_of_isAlphanum ?_⟩
    rw [Char.isAlphanum, h c hMem, Bool.or_true]
  | name hFirst hRest =>
    rw [String.toList_ofList]
    exact ⟨List.cons_ne_nil _ _, fun c hMem => Text.isBlank_of_isAlphanum (isAlphanum_of_word hFirst hRest c hMem)⟩

theorem solid_of_lex {source : String} {tokens : List Token} (h : lex source = .ok tokens) :
    ∀ t ∈ tokens, Solid t.text.toList :=
  fun t hMem => ((lex_eq_ok_iff.mp h).spelled t hMem).solid

theorem clean_of_solid {t : Token} (h : Solid t.text.toList) : t.Clean :=
  { nonempty := mt String.toList_eq_nil_iff.mpr h.1
    feedless := Text.not_mem_of_solid h rfl
    trimmed := h.trimmed }

theorem clean_of_lex {source : String} {tokens : List Token} (h : lex source = .ok tokens) : ∀ t ∈ tokens, t.Clean :=
  fun t hMem => clean_of_solid (solid_of_lex h t hMem)

/-! ## Lines -/

theorem solid_tag (kind : Kind) : Solid kind.tag.toList := by
  cases kind <;> decide

theorem ofTag?_tag (kind : Kind) : Kind.ofTag? kind.tag = some kind := by
  cases kind <;> decide

variable {t : Token}

theorem Clean.toList_ne_nil (h : t.Clean) : t.text.toList ≠ [] := mt String.toList_eq_nil_iff.mp h.nonempty

theorem toList_line (t : Token) : t.line.toList = t.kind.tag.toList ++ ' ' :: t.text.toList := by
  rw [line, String.toList_append, String.toList_append, List.append_assoc]
  rfl

theorem trim_line (h : t.Clean) : Text.trim t.line.toList = t.line.toList := by
  have hTag := solid_tag t.kind
  rw [toList_line, List.append_cons]
  exact Text.trim_trimmed (hTag.trimmed.between hTag.1 h.trimmed h.toList_ne_nil [' '])

theorem ofLine_line (h : t.Clean) : ofLine t.line.toList = .ok t := by
  have hText : t.text.toList.isEmpty = false := List.isEmpty_eq_false_iff.mpr h.toList_ne_nil
  rw [ofLine, trim_line h, toList_line, Text.cutAtBlank_solid (solid_tag t.kind) rfl]
  simp only [String.ofList_toList, ofTag?_tag, Text.trim_trimmed h.trimmed, hText]
  rfl

theorem feed_not_mem_line (h : t.Clean) : '\n' ∉ t.line.toList := by
  rw [toList_line, List.mem_append, List.mem_cons]
  rintro (hTag | hSpace | hText)
  · exact Text.not_mem_of_solid (solid_tag t.kind) rfl hTag
  · cases hSpace
  · exact h.feedless hText

theorem ofLine_dropReturn (line : List Char) : ofLine (Text.dropReturn line) = ofLine line := by
  rw [ofLine, ofLine, Text.trim_dropReturn]

theorem clean_of_ofLine {line : List Char} (hLine : '\n' ∉ line) (h : ofLine line = .ok t) : t.Clean := by
  rw [ofLine] at h
  split at h
  rename_i tag rest hCut
  dsimp only at h
  split at h
  · cases h
  · split at h
    · cases h
    · rename_i hText
      cases h
      have hRest : ∀ c ∈ rest, c ∈ line := by
        intro c hMem
        have hEnd : rest = ((Text.trim line).dropWhile fun c => !isBlank c).tail := (Prod.ext_iff.mp hCut).2.symm
        rw [hEnd] at hMem
        exact Text.mem_of_mem_trim (List.dropWhile_subset _ (List.mem_of_mem_tail hMem))
      constructor
      · rw [ne_eq, String.ofList_eq_empty_iff]
        exact mt List.isEmpty_iff.mpr hText
      · rw [String.toList_ofList]
        exact fun hFeed => hLine (hRest _ (Text.mem_of_mem_trim hFeed))
      · rw [String.toList_ofList]
        exact Text.trimmed_trim rest

/-! ## Files -/

theorem toList_writeAll_cons (t : Token) (tokens : List Token) :
    (writeAll (t :: tokens)).toList = t.line.toList ++ '\n' :: (writeAll tokens).toList := by
  rw [writeAll, List.map_cons, String.join_cons, String.toList_append, String.toList_append, List.append_assoc]
  rfl

/-- Tokens with clean texts are read back from their file. -/
theorem readAll_writeAll {tokens : List Token} (h : ∀ t ∈ tokens, t.Clean) :
    readAll (writeAll tokens) = .ok tokens := by
  induction tokens with
  | nil => rfl
  | cons t tokens ih =>
    obtain ⟨hFirst, hRest⟩ := List.forall_mem_cons.mp h
    have hShown : (Text.trim (Text.dropReturn t.line.toList)).isEmpty = false := by
      rw [Text.trim_dropReturn, trim_line hFirst, toList_line]
      exact List.isEmpty_eq_false_iff.mpr (List.append_ne_nil_of_left_ne_nil (solid_tag t.kind).1 _)
    have hLater := ih hRest
    rw [readAll] at hLater ⊢
    rw [toList_writeAll_cons, Text.lines_append (feed_not_mem_line hFirst), List.filter_cons_of_pos, List.mapM_cons,
      ofLine_dropReturn, ofLine_line hFirst, hLater]
    · rfl
    · rw [hShown]
      rfl

/-- What a file is read to has clean texts, for a line holds no line feed and its parts are trimmed. -/
theorem clean_of_readAll {text : String} {tokens : List Token} (h : readAll text = .ok tokens) :
    ∀ t ∈ tokens, t.Clean := by
  intro t hMem
  obtain ⟨line, hLine, hToken⟩ := Effect.exists_of_mem_mapM h hMem
  exact clean_of_ofLine (Text.feed_not_mem_of_mem_lines (List.mem_filter.mp hLine).1) hToken

/-- Tokens come back from their file exactly if their texts are clean, and what is lexed or read has clean texts. -/
theorem file_round_trip :
    (∀ tokens : List Token, readAll (writeAll tokens) = .ok tokens ↔ ∀ t ∈ tokens, t.Clean) ∧
      (∀ source tokens, lex source = .ok tokens →
        (∀ t ∈ tokens, t.Clean) ∧ readAll (writeAll tokens) = .ok tokens) ∧
      ∀ text tokens, readAll text = .ok tokens →
        (∀ t ∈ tokens, t.Clean) ∧ readAll (writeAll tokens) = .ok tokens := by
  refine ⟨?_, ?_, ?_⟩
  · intro tokens
    constructor
    · exact clean_of_readAll
    · exact readAll_writeAll
  · intro source tokens hLex
    have hClean := clean_of_lex hLex
    exact ⟨hClean, readAll_writeAll hClean⟩
  · intro text tokens hRead
    have hClean := clean_of_readAll hRead
    exact ⟨hClean, readAll_writeAll hClean⟩

/-- A return inside a text and a space without width are kept, a space that does not break is not. -/
theorem file_round_trip_blanks :
    readAll (writeAll [⟨.name, "a \r b"⟩, ⟨.comma, "\u200b"⟩]) = .ok [⟨.name, "a \r b"⟩, ⟨.comma, "\u200b"⟩] ∧
      readAll (writeAll [⟨.number, "1\u00a0"⟩]) ≠ .ok [⟨.number, "1\u00a0"⟩] ∧
      readAll (writeAll [⟨.print, "print"⟩, ⟨.name, "x"⟩]) = .ok [⟨.print, "print"⟩, ⟨.name, "x"⟩] ∧
      readAll (writeAll [⟨.name, "x y"⟩]) = .ok [⟨.name, "x y"⟩] := by
  obtain ⟨hExact, hLexed, hRead⟩ := file_round_trip
  refine ⟨(hExact _).mpr (by decide), ?_, ?_, ?_⟩
  · rw [ne_eq, hExact]
    decide
  · exact (hLexed "print x" _ (by cbv)).2
  · exact (hRead "\n REF\t x y \r\n" _ rfl).2

end Vee.Token
