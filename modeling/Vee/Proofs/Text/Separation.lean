import Mathlib
import Vee.Text.Lines

/-! # Words and lines

How a text falls apart where a blank or a line feed stands. A run of characters without a blank is one word, and
blanks at the ends of a text do not change its words.
-/

namespace Vee.Text

set_option autoImplicit false

/-! ## Fields -/

section

variable {sep : Char → Bool} {c : Char} {front rest cs : List Char}

theorem fields_ne_nil (sep : Char → Bool) (cs : List Char) : fields sep cs ≠ [] := by
  cases cs with
  | nil => exact List.cons_ne_nil _ _
  | cons c cs =>
    rw [fields]
    split
    · exact List.cons_ne_nil _ _
    · split <;> exact List.cons_ne_nil _ _

theorem fields_append (hSep : sep c = true) :
    fields sep (front ++ c :: rest) = fields sep front ++ fields sep rest := by
  induction front with
  | nil =>
    simp only [List.nil_append, fields, hSep, if_true, List.singleton_append]
  | cons d front ih =>
    rw [List.cons_append, fields, fields, ih]
    split
    · rfl
    · cases hFront : fields sep front with
      | nil => exact absurd hFront (fields_ne_nil sep front)
      | cons f fs => rfl

theorem fields_eq_singleton (h : ∀ c ∈ cs, sep c = false) : fields sep cs = [cs] := by
  induction cs with
  | nil => rfl
  | cons c cs ih =>
    obtain ⟨hFirst, hRest⟩ := List.forall_mem_cons.mp h
    rw [fields, hFirst, ih hRest]
    rfl

theorem fields_intercalate {ls : List (List Char)} (hSep : sep c = true) (hNonempty : ls ≠ [])
    (h : ∀ l ∈ ls, ∀ d ∈ l, sep d = false) : fields sep ([c].intercalate ls) = ls := by
  induction ls with
  | nil => exact absurd rfl hNonempty
  | cons l ls ih =>
    obtain ⟨hFirst, hRest⟩ := List.forall_mem_cons.mp h
    cases ls with
    | nil => rw [List.intercalate_singleton, fields_eq_singleton hFirst]
    | cons m ls =>
      rw [List.intercalate_cons_cons, List.append_assoc, List.singleton_append, fields_append hSep,
        fields_eq_singleton hFirst, ih (List.cons_ne_nil _ _) hRest, List.singleton_append]

theorem not_sep_of_mem_fields {f : List Char} (h : f ∈ fields sep cs) (hMem : c ∈ f) : sep c = false := by
  induction cs generalizing f with
  | nil =>
    rw [List.mem_singleton.mp h] at hMem
    cases hMem
  | cons d cs ih =>
    rw [fields] at h
    split at h
    · rcases List.mem_cons.mp h with rfl | hRest
      · cases hMem
      · exact ih hRest hMem
    · rename_i hNot
      cases hFields : fields sep cs with
      | nil => exact absurd hFields (fields_ne_nil sep cs)
      | cons first rest =>
        rw [hFields] at h ih
        rcases List.mem_cons.mp h with rfl | hRest
        · rcases List.mem_cons.mp hMem with rfl | hFirst
          · exact eq_false_of_ne_true hNot
          · exact ih List.mem_cons_self hFirst
        · exact ih (List.mem_cons_of_mem _ hRest) hMem

end

/-! ## Words -/

section

variable {c : Char} {front rest cs : List Char}

theorem words_append (hBlank : isBlank c = true) : words (front ++ c :: rest) = words front ++ words rest := by
  rw [words, fields_append hBlank, List.filter_append]
  rfl

theorem words_dropWhile (cs : List Char) : words (cs.dropWhile isBlank) = words cs := by
  induction cs with
  | nil => rfl
  | cons c cs ih =>
    rw [List.dropWhile_cons]
    split
    · rename_i hBlank
      have hFirst : words ([] ++ c :: cs) = words [] ++ words cs := words_append hBlank
      rw [ih]
      exact hFirst.symm
    · rfl

theorem words_reverse_dropWhile (cs : List Char) : words (cs.dropWhile isBlank).reverse = words cs.reverse := by
  induction cs with
  | nil => rfl
  | cons c cs ih =>
    rw [List.dropWhile_cons]
    split
    · rename_i hBlank
      rw [ih, List.reverse_cons, words_append hBlank]
      exact (List.append_nil _).symm
    · rfl

/-- Blanks at the ends are in no word. -/
theorem words_trim (cs : List Char) : words (trim cs) = words cs := by
  rw [trim, words_reverse_dropWhile, List.reverse_reverse, words_dropWhile]

theorem isBlank_of_isAlphanum (h : c.isAlphanum = true) : isBlank c = false := by
  simp only [Char.isAlphanum, Char.isAlpha, Char.isUpper, Char.isLower, Char.isDigit, Bool.or_eq_true,
    Bool.and_eq_true, decide_eq_true_eq, ge_iff_le, UInt32.le_iff_toNat_le] at h
  change ((65 ≤ c.toNat ∧ c.toNat ≤ 90) ∨ (97 ≤ c.toNat ∧ c.toNat ≤ 122)) ∨ (48 ≤ c.toNat ∧ c.toNat ≤ 57) at h
  simp only [isBlank, Bool.or_eq_false_iff, Bool.and_eq_false_iff, decide_eq_false_iff_not, beq_eq_false_iff_ne]
  omega

/-- Characters that make up one word. -/
def Solid (cs : List Char) : Prop := cs ≠ [] ∧ ∀ c ∈ cs, isBlank c = false

instance (cs : List Char) : Decidable (Solid cs) :=
  decidable_of_iff ((!cs.isEmpty && cs.all fun c => !isBlank c) = true) (by simp [Solid])

theorem words_solid (h : Solid cs) : words cs = [cs] := by
  rw [words, fields_eq_singleton h.2]
  simp [h.1]

theorem words_intercalate {ws : List (List Char)} (h : ∀ w ∈ ws, Solid w) : words ([' '].intercalate ws) = ws := by
  induction ws with
  | nil => rfl
  | cons w ws ih =>
    obtain ⟨hFirst, hRest⟩ := List.forall_mem_cons.mp h
    cases ws with
    | nil => rw [List.intercalate_singleton, words_solid hFirst]
    | cons v ws =>
      rw [List.intercalate_cons_cons, List.append_assoc, List.singleton_append, words_append rfl, ih hRest,
        words_solid hFirst, List.singleton_append]

theorem mem_intercalate {ws : List (List Char)} (h : c ∈ [' '].intercalate ws) : c = ' ' ∨ ∃ w ∈ ws, c ∈ w := by
  induction ws with
  | nil => cases h
  | cons w ws ih =>
    cases ws with
    | nil =>
      rw [List.intercalate_singleton] at h
      exact .inr ⟨w, List.mem_cons_self, h⟩
    | cons v ws =>
      rw [List.intercalate_cons_cons, List.append_assoc, List.mem_append, List.singleton_append, List.mem_cons] at h
      rcases h with hFirst | hSpace | hRest
      · exact .inr ⟨w, List.mem_cons_self, hFirst⟩
      · exact .inl hSpace
      · obtain hSpace | ⟨u, hMem, hChar⟩ := ih hRest
        · exact .inl hSpace
        · exact .inr ⟨u, List.mem_cons_of_mem _ hMem, hChar⟩

theorem not_mem_of_solid (h : Solid cs) (hBlank : isBlank c = true) : c ∉ cs := by
  intro hMem
  rw [h.2 c hMem] at hBlank
  cases hBlank

theorem Solid.append (hFront : Solid front) (hRest : Solid rest) : Solid (front ++ rest) := by
  constructor
  · exact List.append_ne_nil_of_left_ne_nil hFront.1 rest
  · rw [List.forall_mem_append]
    exact ⟨hFront.2, hRest.2⟩

/-- Characters with no blank at either end. -/
structure Trimmed (cs : List Char) : Prop where
  front : ∀ c, cs.head? = some c → isBlank c = false
  back : ∀ c, cs.getLast? = some c → isBlank c = false

instance (cs : List Char) : Decidable (Trimmed cs) :=
  decidable_of_iff ((cs.head?.all (!isBlank ·) && cs.getLast?.all (!isBlank ·)) = true) (by
    simp only [Bool.and_eq_true, Option.all_eq_true, Bool.not_eq_true']
    exact ⟨fun h => ⟨h.1, h.2⟩, fun h => ⟨h.front, h.back⟩⟩)

theorem Solid.trimmed (h : Solid cs) : Trimmed cs := by
  constructor
  · intro c hHead
    exact h.2 c (List.mem_of_mem_head? hHead)
  · intro c hLast
    exact h.2 c (List.mem_of_getLast? hLast)

theorem Trimmed.between (hFront : Trimmed front) (hNonempty : front ≠ []) (hRest : Trimmed rest) (hEnds : rest ≠ [])
    (cs : List Char) : Trimmed (front ++ cs ++ rest) := by
  constructor
  · intro c hHead
    cases front with
    | nil => exact absurd rfl hNonempty
    | cons d front => exact hFront.front c hHead
  · intro c hLast
    rw [List.getLast?_append, List.getLast?_eq_some_getLast hEnds, Option.some_or] at hLast
    exact hRest.back c ((List.getLast?_eq_some_getLast hEnds).trans hLast)

theorem dropWhile_of_head (h : ∀ c, cs.head? = some c → isBlank c = false) : cs.dropWhile isBlank = cs := by
  cases cs with
  | nil => rfl
  | cons c cs =>
    apply List.dropWhile_cons_of_neg
    rw [h c rfl]
    exact Bool.false_ne_true

theorem trim_trimmed (h : Trimmed cs) : trim cs = cs := by
  have hBack : cs.reverse.dropWhile isBlank = cs.reverse := by
    apply dropWhile_of_head
    rw [List.head?_reverse]
    exact h.back
  rw [trim, dropWhile_of_head h.front, hBack, List.reverse_reverse]

theorem head_dropWhile (h : (cs.dropWhile isBlank).head? = some c) : isBlank c = false := by
  have hHead := List.head?_dropWhile_not isBlank cs
  rw [h] at hHead
  exact hHead

theorem trim_isPrefix (cs : List Char) : trim cs <+: cs.dropWhile isBlank := by
  have hSuffix := List.reverse_prefix.mpr (List.dropWhile_suffix (l := (cs.dropWhile isBlank).reverse) isBlank)
  rw [List.reverse_reverse] at hSuffix
  exact hSuffix

theorem trimmed_trim (cs : List Char) : Trimmed (trim cs) := by
  constructor
  · intro c hHead
    obtain ⟨rest, hRest⟩ := trim_isPrefix cs
    have hFirst : (cs.dropWhile isBlank).head? = some c := by
      rw [← hRest, List.head?_append, hHead, Option.some_or]
    exact head_dropWhile hFirst
  · intro c hLast
    rw [trim, List.getLast?_reverse] at hLast
    exact head_dropWhile hLast

theorem mem_of_mem_trim (h : c ∈ trim cs) : c ∈ cs :=
  List.dropWhile_subset isBlank ((trim_isPrefix cs).subset h)

/-- Blanks around a text are trimmed away. -/
theorem trim_padded (hFront : ∀ c ∈ front, isBlank c = true) (hRest : ∀ c ∈ rest, isBlank c = true) (h : Trimmed cs)
    (hNonempty : cs ≠ []) : trim (front ++ cs ++ rest) = cs := by
  have hBack : ∀ c ∈ rest.reverse, isBlank c = true := fun c hMem => hRest c (List.mem_reverse.mp hMem)
  have hHead : (cs ++ rest).dropWhile isBlank = cs ++ rest := by
    apply dropWhile_of_head
    intro c hFirst
    cases cs with
    | nil => exact absurd rfl hNonempty
    | cons d cs => exact h.front c hFirst
  calc trim (front ++ cs ++ rest)
    _ = ((cs ++ rest).reverse.dropWhile isBlank).reverse := by
      rw [trim, List.append_assoc, List.dropWhile_append_of_pos hFront, hHead]
    _ = (cs.reverse.dropWhile isBlank).reverse := by rw [List.reverse_append, List.dropWhile_append_of_pos hBack]
    _ = trim cs := by rw [trim, dropWhile_of_head h.front]
    _ = cs := trim_trimmed h

theorem head?_trim (hHead : cs.head? = some c) (hBlank : isBlank c = false) : (trim cs).head? = some c := by
  obtain ⟨rest, rfl⟩ := List.head?_eq_some_iff.mp hHead
  have hNot : ¬ isBlank c = true := Bool.not_eq_true _ ▸ hBlank
  rw [trim, List.dropWhile_cons_of_neg hNot, List.reverse_cons, List.dropWhile_append]
  split
  · rw [List.dropWhile_cons_of_neg hNot]
    rfl
  · rw [List.reverse_concat]
    rfl

theorem cutAtBlank_solid (h : Solid front) (hBlank : isBlank c = true) :
    cutAtBlank (front ++ c :: rest) = (front, rest) := by
  have hFront : ∀ d ∈ front, (!isBlank d) = true := by
    intro d hMem
    rw [h.2 d hMem]
    rfl
  rw [cutAtBlank, List.takeWhile_append_of_pos hFront, List.dropWhile_append_of_pos hFront]
  simp [hBlank]

end

/-! ## Lines -/

section

variable {line rest : List Char}

theorem fields_line (h : '\n' ∉ line) : fields (· == '\n') line = [line] := by
  apply fields_eq_singleton
  intro c hMem
  rw [beq_eq_false_iff_ne]
  rintro rfl
  exact h hMem

theorem lines_append (h : '\n' ∉ line) : lines (line ++ '\n' :: rest) = dropReturn line :: lines rest := by
  have hFields : fields (· == '\n') (line ++ '\n' :: rest) = line :: fields (· == '\n') rest := by
    rw [fields_append rfl, fields_line h, List.singleton_append]
  rw [lines, lines, hFields]
  cases hRest : fields (· == '\n') rest with
  | nil => exact absurd hRest (fields_ne_nil _ _)
  | cons f fs =>
    rw [linesOfFields]
    exact List.cons_ne_nil _ _

theorem dropReturn_isPrefix (line : List Char) : dropReturn line <+: line := by
  rw [dropReturn]
  split
  · exact List.dropLast_prefix line
  · exact List.prefix_rfl

theorem dropReturn_of_not_mem (h : '\r' ∉ line) : dropReturn line = line := by
  rw [dropReturn, if_neg]
  exact fun hLast => h (List.mem_of_getLast? hLast)

theorem exists_field_of_line {fs : List (List Char)} (h : line ∈ linesOfFields fs) : ∃ f ∈ fs, line <+: f := by
  fun_induction linesOfFields fs with
  | case1 => cases h
  | case2 last hEmpty => cases h
  | case3 last hFull => exact ⟨last, List.mem_singleton_self last, List.mem_singleton.mp h ▸ List.prefix_rfl⟩
  | case4 first rest hMore ih =>
    rcases List.mem_cons.mp h with rfl | hRest
    · exact ⟨first, List.mem_cons_self, dropReturn_isPrefix first⟩
    · obtain ⟨f, hMem, hPrefix⟩ := ih hRest
      exact ⟨f, List.mem_cons_of_mem _ hMem, hPrefix⟩

theorem feed_not_mem_of_mem_lines {cs : List Char} (h : line ∈ lines cs) : '\n' ∉ line := by
  obtain ⟨f, hMem, hPrefix⟩ := exists_field_of_line h
  intro hFeed
  cases not_sep_of_mem_fields hMem (hPrefix.subset hFeed)

theorem trim_concat {c : Char} (hBlank : isBlank c = true) (cs : List Char) : trim (cs ++ [c]) = trim cs := by
  rw [trim, trim, List.dropWhile_append]
  split
  · rename_i hEmpty
    rw [List.isEmpty_iff.mp hEmpty, List.dropWhile_cons_of_pos hBlank]
    rfl
  · rw [List.reverse_append, List.reverse_singleton, List.singleton_append, List.dropWhile_cons_of_pos hBlank]

/-- A carriage return at the end of a line is as good as none, for it is a blank. -/
theorem trim_dropReturn (line : List Char) : trim (dropReturn line) = trim line := by
  rw [dropReturn]
  split
  · rename_i hLast
    obtain ⟨front, rfl⟩ := List.getLast?_eq_some_iff.mp hLast
    rw [List.dropLast_concat, trim_concat rfl]
  · rfl

end

end Vee.Text
