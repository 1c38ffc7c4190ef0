import Vee.Proofs.Text.Spelling

/-! # Lexing undoes spelling

A text is cut into tokens in one way at most: where a gap ends, the longest token stands. Lexing finds the cut of a text
that has one. In every other text it names the first place where there is none, and the text before that place is cut.
-/

namespace Vee.Token

set_option autoImplicit false

/-- A text in front of a rest, cut into tokens and gaps. At the end of a source the last line's comment needs no end. -/
inductive Cut (rest : List Char) : List Token → List Char → Prop where
  | last {gap : List Char} (hGap : Gap gap) : Cut rest [] gap
  | lastLine {gap body : List Char} (hGap : Gap gap) (hBody : '\n' ∉ body) (hEnd : rest = []) :
      Cut rest [] (gap ++ '#' :: body)
  | token {gap text : List Char} {t : Token} {ts : List Token} (hGap : Gap gap) (hStands : Stands t (text ++ rest))
      (hRest : Cut rest ts text) : Cut rest (t :: ts) (gap ++ t.text.toList ++ text)

namespace Cut

variable {rest gap text : List Char} {ts : List Token}

theorem gap_append (hGap : Gap gap) (h : Cut rest ts text) : Cut rest ts (gap ++ text) := by
  cases h with
  | last hRest => exact .last (hGap.append hRest)
  | lastLine hRest hBody hEnd =>
    rw [← List.append_assoc]
    exact .lastLine (hGap.append hRest) hBody hEnd
  | token hRest hStands h =>
    rw [← List.append_assoc, ← List.append_assoc]
    exact .token (hGap.append hRest) hStands h

theorem cons {t : Token} (hStands : Stands t (text ++ rest)) (h : Cut rest ts text) :
    Cut rest (t :: ts) (t.text.toList ++ text) := .token .nil hStands h

/-- What stands behind a cut text may be left out. -/
theorem alone (h : Cut rest ts text) : Cut [] ts text := by
  induction h with
  | last hGap => exact .last hGap
  | lastLine hGap hBody => exact .lastLine hGap hBody rfl
  | token hGap hStands _ ih =>
    apply Cut.token hGap _ ih
    rw [List.append_nil]
    exact hStands.of_append

theorem spelled (h : Cut rest ts text) : ∀ t ∈ ts, t.Spelled := by
  induction h with
  | last | lastLine => nofun
  | token _ hStands _ ih => exact List.forall_mem_cons.mpr ⟨hStands.spelled, ih⟩

end Cut

/-- A text that begins with no gap and no token. -/
structure Stuck (text : List Char) : Prop where
  gap : ∀ gap rest, text = gap ++ rest → Gap gap → gap = []
  token : ∀ t rest, text = t.text.toList ++ rest → ¬ Stands t rest

/-! ## Scanning -/

namespace Lexer

variable {c : Char} {cs text rest : List Char} {offset : Nat}

theorem byteSize_append (front back : List Char) : byteSize (front ++ back) = byteSize front + byteSize back := by
  induction front with
  | nil => rw [List.nil_append, byteSize, Nat.zero_add]
  | cons c front ih => rw [List.cons_append, byteSize, byteSize, ih, Nat.add_assoc]

theorem byteSize_eq (cs : List Char) : byteSize cs = (String.ofList cs).utf8ByteSize := by
  induction cs with
  | nil => rfl
  | cons c cs ih => rw [byteSize, ih, String.ofList_cons, String.utf8ByteSize_append, String.utf8ByteSize_singleton]

theorem scan_nil : scan offset [] = .ok [] := by
  rw [scan]

theorem scan_of_next_gap (h : next c cs = (.gap text, rest)) :
    scan offset (c :: cs) = scan (offset + byteSize text) rest := by
  rw [scan, h]

theorem scan_of_next_token {kind : Kind} {ts : List Token} (h : next c cs = (.token kind text, rest))
    (hRest : scan (offset + byteSize text) rest = .ok ts) :
    scan offset (c :: cs) = .ok (⟨kind, String.ofList text⟩ :: ts) := by
  rw [scan, h]
  simp only [hRest]
  rfl

theorem scan_gap_append {gap : List Char} (h : Gap gap) (offset : Nat) (cs : List Char) :
    scan offset (gap ++ cs) = scan (offset + byteSize gap) cs := by
  induction h generalizing offset with
  | nil => rfl
  | @blank c gap h _ ih =>
    rw [← List.singleton_append, byteSize_append, ← Nat.add_assoc, ← ih, ← scan_of_next_gap (next_space h)]
    rfl
  | @line body gap h _ ih =>
    rw [List.append_cons, byteSize_append, ← Nat.add_assoc, ← ih, ← scan_of_next_gap (next_line h)]
    simp
  | @block body gap h _ ih =>
    rw [List.append_cons, List.append_cons, byteSize_append, ← Nat.add_assoc, ← ih, List.append_assoc _ ['*'],
      List.singleton_append, ← scan_of_next_gap (next_block h)]
    simp

theorem scan_of_cut {ts : List Token} (h : Cut [] ts cs) (offset : Nat) : scan offset cs = .ok ts := by
  induction h generalizing offset with
  | @last gap hGap => rw [← List.append_nil gap, scan_gap_append hGap, scan_nil]
  | lastLine hGap hBody => rw [scan_gap_append hGap, scan_of_next_gap (next_lastLine hBody), scan_nil]
  | @token gap text t ts hGap hStands _ ih =>
    obtain ⟨c, cs, hText, -⟩ := hStands.spelled.cases
    rw [List.append_nil] at hStands
    rw [List.append_assoc, scan_gap_append hGap, hText, List.cons_append,
      scan_of_next_token (hStands.next_eq hText) (ih _), ← hText, String.ofList_toList]

/-- An error that is about a part of a text, and what it says of that part. -/
structure Blames (e : LexError) (start : Nat) (bad : List Char) : Prop where
  code : e.diagnostic.code = .lexical
  span : e.diagnostic.span = ⟨start, start + byteSize bad⟩
  detail : e.diagnostic.detail = String.ofList bad ∨ bad = ['/', '*'] ∧ e.diagnostic.detail = "UNTERMINATED COMMENT"

/-- What the result of scanning a text says of it. An error blames what comes first behind the part that is cut. -/
def Scanned (offset : Nat) (cs : List Char) : Except LexError (List Token) → Prop
  | .ok ts => Cut [] ts cs
  | .error e => ∃ pre bad post ts, cs = pre ++ (bad ++ post) ∧ Cut (bad ++ post) ts pre ∧ Stuck (bad ++ post) ∧
      Blames e (offset + byteSize pre) bad

variable {result : Except LexError (List Token)}

theorem Scanned.gap_append (hGap : Gap text) (h : Scanned (offset + byteSize text) rest result) :
    Scanned offset (text ++ rest) result := by
  cases result with
  | ok ts => exact .gap_append hGap h
  | error e =>
    obtain ⟨pre, bad, post, ts, rfl, hCut, hStuck, hBlames⟩ := h
    refine ⟨text ++ pre, bad, post, ts, (List.append_assoc ..).symm, .gap_append hGap hCut, hStuck, ?_⟩
    rwa [byteSize_append, ← Nat.add_assoc]

theorem Scanned.token_append {kind : Kind} (hStands : Stands ⟨kind, String.ofList text⟩ rest)
    (h : Scanned (offset + byteSize text) rest result) :
    Scanned offset (text ++ rest) (result >>= fun ts => pure (⟨kind, String.ofList text⟩ :: ts)) := by
  have hText : text = (String.ofList text).toList := String.toList_ofList.symm
  cases result with
  | ok ts =>
    rw [← List.append_nil rest] at hStands
    have hCut := Cut.cons hStands h
    rwa [← hText] at hCut
  | error e =>
    obtain ⟨pre, bad, post, ts, rfl, hCut, hStuck, hBlames⟩ := h
    have hFirst := Cut.cons hStands hCut
    rw [← hText] at hFirst
    refine ⟨text ++ pre, bad, post, _, (List.append_assoc ..).symm, hFirst, hStuck, ?_⟩
    rwa [byteSize_append, ← Nat.add_assoc]

theorem next_gap {gap : List Char} (h : Gap (c :: gap)) (rest : List Char) :
    ∃ text later, next c (gap ++ rest) = (.gap text, later) := by
  cases h with
  | blank h => exact ⟨_, _, next_space h⟩
  | @line body gap h =>
    rw [List.append_eq, List.append_assoc]
    exact ⟨_, _, next_line h⟩
  | @block body gap h =>
    rw [List.append_eq, List.append_assoc]
    exact ⟨_, _, next_block h⟩

theorem stuck_of_next {piece : Piece} (h : next c cs = (piece, rest)) (hGap : ∀ text, piece ≠ .gap text)
    (hToken : ∀ kind text, piece ≠ .token kind text) : Stuck (c :: cs) := by
  constructor
  · rintro (_ | ⟨c', gap⟩) rest hText hFront
    · rfl
    · obtain ⟨rfl, rfl⟩ := List.cons.inj hText
      obtain ⟨text, later, hNext⟩ := next_gap hFront rest
      exact absurd (congrArg Prod.fst (h.symm.trans hNext)) (hGap text)
  · intro t rest hText hStands
    obtain ⟨c', cs', hFirst, -⟩ := hStands.spelled.cases
    rw [hFirst] at hText
    obtain ⟨rfl, rfl⟩ := List.cons.inj hText
    exact absurd (congrArg Prod.fst (h.symm.trans (hStands.next_eq hFirst))) (hToken t.kind (c :: cs'))

theorem scanned_scan (offset : Nat) (cs : List Char) : Scanned offset cs (scan offset cs) := by
  induction hLength : cs.length using Nat.strongRecOn generalizing offset cs with
  | ind n ih =>
    cases cs with
    | nil =>
      rw [scan_nil]
      exact .last .nil
    | cons c cs =>
      have hWhole := next_append c cs
      have hFits := next_fits c cs
      have hShorter := length_next c cs
      rw [scan]
      generalize hNext : next c cs = cut at *
      obtain ⟨piece, rest⟩ := cut
      have hRest := fun offset => ih rest.length (hLength ▸ hShorter) offset rest rfl
      have hStuck := stuck_of_next hNext
      rw [← hWhole] at hStuck ⊢
      cases hFits with
      | gap hGap => exact (hRest _).gap_append hGap
      | lastLine hBody =>
        dsimp only
        rw [scan_nil, List.append_nil]
        exact .lastLine .nil hBody rfl
      | token hStands => exact (hRest _).token_append hStands
      | @malformed text =>
        have hStuck := hStuck (fun _ hEq => by cases hEq) fun _ _ hEq => by cases hEq
        exact ⟨[], text, rest, [], rfl, .last .nil, hStuck, ⟨rfl, rfl, .inl rfl⟩⟩
      | @unterminated body =>
        rw [List.append_nil] at hStuck ⊢
        have hStuck := hStuck (fun _ hEq => by cases hEq) fun _ _ hEq => by cases hEq
        exact ⟨[], ['/', '*'], body, [], rfl, .last .nil, hStuck, ⟨rfl, rfl, .inr ⟨rfl, rfl⟩⟩⟩

end Lexer

/-! ## Texts of sources -/

theorem lex_eq_ok_iff {source : String} {ts : List Token} : lex source = .ok ts ↔ Cut [] ts source.toList := by
  constructor
  · intro h
    have hScanned := Lexer.scanned_scan 0 source.toList
    rw [lex] at h
    rwa [h] at hScanned
  · intro h
    exact Lexer.scan_of_cut h 0

/-- Lexing loses nothing and locates its errors. A source is lexed to the tokens into which it is cut. The error of a
source that is not cut names its first part that begins neither a gap nor a token, by its bytes and its text. -/
theorem lex_locates (source : String) :
    (∀ ts, lex source = .ok ts ↔ Cut [] ts source.toList) ∧
      ∀ e, lex source = .error e → ∃ (pre bad post : String) (ts : List Token),
        source = pre ++ bad ++ post ∧
        e.diagnostic.code = .lexical ∧
        e.diagnostic.span = ⟨pre.utf8ByteSize, (pre ++ bad).utf8ByteSize⟩ ∧
        (e.diagnostic.detail = bad ∨ bad = "/*" ∧ e.diagnostic.detail = "UNTERMINATED COMMENT") ∧
        Stuck (bad ++ post).toList ∧ Cut (bad ++ post).toList ts pre.toList ∧ lex pre = .ok ts := by
  refine ⟨fun ts => lex_eq_ok_iff, ?_⟩
  intro e h
  have hScanned := Lexer.scanned_scan 0 source.toList
  rw [lex] at h
  rw [h] at hScanned
  obtain ⟨pre, bad, post, ts, hText, hCut, hStuck, hBlames⟩ := hScanned
  have hRest : (String.ofList bad ++ String.ofList post).toList = bad ++ post := by
    rw [String.toList_append, String.toList_ofList, String.toList_ofList]
  refine ⟨String.ofList pre, String.ofList bad, String.ofList post, ts, ?_, hBlames.code, ?_, ?_, ?_, ?_, ?_⟩
  · rw [String.append_assoc, ← String.ofList_append, ← String.ofList_append, ← hText, String.ofList_toList]
  · rw [hBlames.span, String.utf8ByteSize_append, ← Lexer.byteSize_eq, ← Lexer.byteSize_eq, Nat.zero_add]
  · rcases hBlames.detail with hDetail | ⟨rfl, hDetail⟩
    · exact .inl hDetail
    · exact .inr ⟨rfl, hDetail⟩
  · rwa [hRest]
  · rwa [hRest, String.toList_ofList]
  · rw [lex_eq_ok_iff, String.toList_ofList]
    exact hCut.alone

/-! ## Spelled tokens -/

/-- The text of tokens, each with what stands behind it. -/
def spell (parts : List (Token × List Char)) : List Char := parts.flatMap fun part => part.1.text.toList ++ part.2

/-- A source may end with a comment on its last line. -/
def Ends (tail : List Char) : Prop := tail = [] ∨ ∃ body, '\n' ∉ body ∧ tail = '#' :: body

theorem Ends.cut {tail : List Char} (h : Ends tail) : Cut [] [] tail := by
  rcases h with rfl | ⟨body, hBody, rfl⟩
  · exact .last .nil
  · exact .lastLine .nil hBody rfl

theorem Ends.head {tail : List Char} (h : Ends tail) {c : Char} (hFirst : c ∈ tail.head?) : c = '#' := by
  rcases h with rfl | ⟨body, -, rfl⟩
  · cases hFirst
  · cases hFirst
    rfl

theorem cut_spell {parts : List (Token × List Char)} {tail : List Char} (hSpelled : ∀ part ∈ parts, part.1.Spelled)
    (hGaps : ∀ part ∈ parts, Gap part.2) (hApart : ∀ part ∈ parts.dropLast, part.2 ≠ []) (hTail : Ends tail) :
    Cut [] (parts.map Prod.fst) (spell parts ++ tail) := by
  induction parts with
  | nil => exact hTail.cut
  | cons part parts ih =>
    obtain ⟨t, gap⟩ := part
    obtain ⟨hToken, hSpelled⟩ := List.forall_mem_cons.mp hSpelled
    obtain ⟨hGap, hGaps⟩ := List.forall_mem_cons.mp hGaps
    have hBehind : ∀ c ∈ (gap ++ (spell parts ++ tail)).head?, Lexer.isSpace c = true ∨ c = '#' ∨ c = '/' := by
      intro c hFirst
      cases gap with
      | cons d gap => exact hGap.head hFirst
      | nil =>
        -- Only the last gap may be empty, and a comment of the last line is all that can follow it.
        cases parts with
        | nil => exact .inr (.inl (hTail.head hFirst))
        | cons => exact absurd rfl (hApart (t, []) List.mem_cons_self)
    have hLater : ∀ part ∈ parts.dropLast, part.2 ≠ [] := by
      intro part hMem
      apply hApart part
      cases parts with
      | nil => cases hMem
      | cons => exact List.mem_cons_of_mem _ hMem
    have hCut := (ih hSpelled hGaps hLater).gap_append hGap
    rw [← List.append_nil (gap ++ _)] at hBehind
    have hFirst := hCut.cons (stands_of_gap hToken hBehind)
    simpa only [spell, List.map_cons, List.flatMap_cons, List.append_assoc] using hFirst

/-- Lexing undoes spelling: tokens come back from every text in which they stand with gaps between them. -/
theorem lex_spell (lead : List Char) (parts : List (Token × List Char)) (tail : List Char) (hLead : Gap lead)
    (hSpelled : ∀ part ∈ parts, part.1.Spelled) (hGaps : ∀ part ∈ parts, Gap part.2)
    (hApart : ∀ part ∈ parts.dropLast, part.2 ≠ []) (hTail : Ends tail) :
    lex (String.ofList (lead ++ spell parts ++ tail)) = .ok (parts.map Prod.fst) := by
  rw [lex_eq_ok_iff, String.toList_ofList, List.append_assoc]
  exact (cut_spell hSpelled hGaps hApart hTail).gap_append hLead

theorem lex_spell_division :
    lex "# one\n//* **/!=\tx1\x0c007#two" =
      .ok [⟨.divide, "/"⟩, ⟨.notEqual, "!="⟩, ⟨.name, "x1"⟩, ⟨.number, "007"⟩] := by
  apply lex_spell ('#' :: " one".toList ++ ['\n'])
    [(⟨.divide, "/"⟩, '/' :: '*' :: [' ', '*'] ++ ['*', '/']), (⟨.notEqual, "!="⟩, ['\t']),
      (⟨.name, String.ofList ['x', '1']⟩, ['\x0c']), (⟨.number, String.ofList ['0', '0', '7']⟩, [])]
    ('#' :: "two".toList)
  · exact .line (by decide) .nil
  · have hFree : ∀ kind : Kind, kind.lexeme? ≠ some (String.ofList ['x', '1']) := by
      rintro ⟨⟩ <;> decide
    have hDigits : ∀ c ∈ ['0', '0', '7'], c.isDigit = true := by
      simp only [List.forall_mem_cons]
      exact ⟨rfl, rfl, rfl, nofun⟩
    simp only [List.forall_mem_cons]
    exact ⟨.fixed rfl, .fixed rfl, .name rfl (List.forall_mem_singleton.mpr rfl) hFree,
      .number (List.cons_ne_nil _ _) hDigits, nofun⟩
  · simp only [List.forall_mem_cons]
    exact ⟨.block (by decide) .nil, .blank (by decide) .nil, .blank (by decide) .nil, .nil, nofun⟩
  · simp
  · exact .inr ⟨"two".toList, by decide, rfl⟩

end Vee.Token
