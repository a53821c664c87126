import StackScript.Proofs.Token.Newlines

-- Strings in a source: any text can be written as a literal, and what is read as a string is written so.
namespace StackScript

open String (utf8Len)

theorem literal_read (marked : List (Char × Bool)) : lexemes (String.ofList (literal marked)) =
    .ok #[⟨.string (String.ofList (marked.map Prod.fst)), ⟨0, utf8Len (literal marked)⟩⟩] := by
  have nothing : Tiled (0 + utf8Len (literal marked)) [] [] := .done .nil
  have tiled := nothing.behind .string rfl
  have read := Scan.tiled_read tiled .nil #[]
  rw [List.append_nil, List.append_nil] at read
  rw [lexemes, String.toList_ofList, read, Scan.lexemesFrom]
  simp

-- A text whose quotes and backslashes are escaped, and of whose newlines, tabs and carriage returns any are, is a string
-- between quotes: that string and nothing else. Wherever a string is read in a source, it is written so.
theorem strings_written :
    (∀ (s : String) (marked : List (Char × Bool)), marked.map Prod.fst = s.toList →
      lexemes (String.ofList (literal marked)) = .ok #[⟨.string s, ⟨0, (String.ofList (literal marked)).utf8ByteSize⟩⟩]) ∧
    ∀ (source : String) (found : Array Lexeme), lexemes source = .ok found → ∀ l ∈ found, ∀ s, l.token = .string s →
      ∃ marked behind, marked.map Prod.fst = s.toList ∧ l.span.Covers source.toList (literal marked) behind := by
  constructor
  · intro s marked same
    have read := literal_read marked
    rwa [same, String.ofList_toList, ← String.utf8ByteSize_ofList] at read
  · intro source found scanned l present s same
    obtain ⟨ls, all, tiled⟩ := Scan.lexemesFrom_tiled 0 #[] source.toList scanned
    rw [Array.toList_empty, List.nil_append] at all
    have covered := (tiled.covers (List.nil_append source.toList).symm rfl).1 l (all ▸ Array.mem_toList_iff.mpr present)
    obtain ⟨text, behind, covers, written, -⟩ := covered
    rw [same] at written
    cases written with
    | wording known => cases known
    | string => exact ⟨_, behind, by simp, covers⟩

-- A backslash at the end, a quote in front of a comment, newlines both ways; then between other lexemes.
theorem strings_written_escaped :
    lexemes "\"\\\"//é\n\\n\\\\\"" = .ok #[⟨.string "\"//é\n\n\\", ⟨0, 13⟩⟩] ∧
    ∃ marked behind, marked.map Prod.fst = ['\\'] ∧
      (⟨4, 8⟩ : Span).Covers "x + \"\\\\\" // \"".toList (literal marked) behind := by
  constructor
  · have chosen := strings_written.1 "\"//é\n\n\\" [('"', false), ('/', true), ('/', false), ('é', true), ('\n', false),
      ('\n', true), ('\\', false)]
    exact chosen (by decide +kernel)
  · have scanned : lexemes "x + \"\\\\\" // \"" = .ok #[⟨.identifier "x", ⟨0, 1⟩⟩, ⟨.plus, ⟨2, 3⟩⟩,
      ⟨.string "\\", ⟨4, 8⟩⟩] := by decide +kernel
    exact strings_written.2 _ _ scanned ⟨.string "\\", ⟨4, 8⟩⟩ (by simp) "\\" rfl

end StackScript
