import Vee.Command.Folder
import Vee.Proofs.Text.Separation

/-! # Files that keep what is written

A text written under a name in the working directory is read back from it. What is written under other paths may
be lost, or be shown.
-/

namespace Vee.Command

set_option autoImplicit false

/-- The path is the name of a file in the working directory. -/
def Path.IsName (path : String) : Prop :=
  path.utf8ByteSize ≤ Folder.maxName ∧ '/' ∉ path.toList ∧ path.toList ∉ [[], ['.'], ['.', '.']]

instance (path : String) : Decidable (Path.IsName path) := inferInstanceAs (Decidable (_ ∧ _ ∧ _))

namespace Path

variable {path : String}

theorem isAbsolute_of_isName (h : IsName path) : isAbsolute path = false := by
  rw [isAbsolute, String.startsWith_string_eq_false_iff]
  intro hPrefix
  exact h.2.1 (hPrefix.subset List.mem_cons_self)

theorem isClosed_of_isName (h : IsName path) : isClosed path = false := by
  rw [isClosed, String.endsWith_eq_endsWith_toSlice, String.Slice.endsWith_string_eq_false_iff, String.copy_toSlice]
  intro hSuffix
  exact h.2.1 (hSuffix.subset List.mem_cons_self)

theorem steps_of_isName (h : IsName path) : steps path = [.name path] := by
  obtain ⟨-, hSlash, hDots⟩ := h
  have hFields : Text.fields (· == '/') path.toList = [path.toList] := by
    apply Text.fields_eq_singleton
    intro c hMem
    rw [beq_eq_false_iff_ne]
    rintro rfl
    exact hSlash hMem
  simp only [List.mem_cons, List.not_mem_nil, or_false, not_or] at hDots
  obtain ⟨hEmpty, hHere, hUp⟩ := hDots
  rw [steps, hFields]
  simp [Step.ofField, hEmpty, hHere, hUp]

end Path

namespace Folder

variable {path : String} {s : Folder}

theorem locate_of_isName (h : Path.IsName path) : s.locate path = .ok (.working, path) := by
  have hLength : ¬ path.utf8ByteSize > maxPath := by
    have hLe := h.1
    simp only [maxName] at hLe
    simp only [maxPath]
    omega
  rw [locate, if_neg hLength, Path.isAbsolute_of_isName h, Path.steps_of_isName h]
  rfl

/-- What a user sees. -/
def shown (s : Folder) : String × String := (s.stdout, s.stderr)

/-- A text written under the path is read back from it, and is not shown. -/
def Faithful (path : String) : Prop :=
  ∀ (s : Folder) (text : String), ∃ t, s.writeText path text = .ok t ∧ t.readText path = .ok text ∧ t.shown = s.shown

theorem fromUTF8?_toUTF8 (text : String) : String.fromUTF8? text.toUTF8 = some text := by
  rw [String.fromUTF8?, String.toUTF8_eq_toByteArray, dif_pos text.isValidUTF8]
  rfl

theorem find_of_isName (h : Path.IsName path) : s.find .working path = .ok (s.files[path]?.map .file) :=
  if_pos h.1

theorem writeText_of_isName (h : Path.IsName path) (text : String) :
    s.writeText path text = .ok (s.keep text .working path) := by
  rw [writeText, locate_of_isName h]
  simp only [bind, Except.bind, Path.isClosed_of_isName h, find_of_isName h]
  cases s.files[path]? <;> rfl

theorem readText_keep (h : Path.IsName path) (text : String) :
    (s.keep text .working path).readText path = .ok text := by
  have hFile : (s.keep text .working path).files[path]? = some text.toUTF8 := Std.TreeMap.getElem?_insert_self
  rw [readText, locate_of_isName h]
  simp only [bind, Except.bind, Path.isClosed_of_isName h, find_of_isName h, hFile, Option.map_some, fromUTF8?_toUTF8]
  rfl

theorem faithful_of_isName (h : Path.IsName path) : Faithful path :=
  fun s text => ⟨s.keep text .working path, writeText_of_isName h text, readText_keep h text, rfl⟩

end Folder

end Vee.Command
