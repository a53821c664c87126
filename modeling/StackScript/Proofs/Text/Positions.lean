import StackScript.Proofs.Text.Lines
import StackScript.Proofs.Token.Places

-- The index of lines counts: the line of a place is one more than the newlines before it, its column one more than the
-- characters before it on its line. Nothing of a text is lost in its lines.
namespace StackScript.Text

open String (utf8Len)

variable {source : String} {before more behind : List Char}

theorem lead_onward (single : '\n' ∉ more) : lead (before ++ more) = lead before ++ more := by
  induction more using List.reverseRecOn with
  | nil => rw [List.append_nil, List.append_nil]
  | append_singleton more c ih =>
    rw [List.mem_append, List.mem_singleton, not_or] at single
    rw [← List.append_assoc, lead_append, if_neg (Ne.symm single.2), ih single.1, List.append_assoc]

-- A place behind another one is on a later line, or on the same line in a later column.
theorem place_onward (nonempty : more ≠ []) : Prod.Lex (· < ·) (· < ·) (lineOf before, columnOf before)
    (lineOf (before ++ more), columnOf (before ++ more)) := by
  by_cases newline : '\n' ∈ more
  · apply Prod.Lex.left
    have counted := List.count_pos_iff.mpr newline
    rw [lineOf, lineOf, List.count_append]
    omega
  · have same : lineOf (before ++ more) = lineOf before := by
      rw [lineOf, lineOf, List.count_append, List.count_eq_zero_of_not_mem newline, Nat.add_zero]
    have longer := List.length_pos_of_ne_nil nonempty
    rw [same]
    apply Prod.Lex.right
    rw [columnOf, columnOf, lead_onward newline, List.length_append]
    omega

theorem lookup_onward {a b : Nat} (one : Boundary source.toList a) (two : Boundary source.toList b) (less : a < b) :
    Prod.Lex (· < ·) (· < ·) (lookup source a) (lookup source b) := by
  obtain ⟨before, rest, whole, rfl⟩ := one
  obtain ⟨upto, behind, again, rfl⟩ := two
  rw [lookup_at whole, lookup_at again]
  rcases List.append_eq_append_iff.mp (whole.symm.trans again) with ⟨more, rfl, -⟩ | ⟨more, rfl, -⟩
  · apply place_onward
    rintro rfl
    rw [List.append_nil] at less
    exact Nat.lt_irrefl _ less
  · rw [String.utf8Len_append] at less
    omega

theorem lookup_injective {a b : Nat} (one : Boundary source.toList a) (two : Boundary source.toList b)
    (same : lookup source a = lookup source b) : a = b := by
  have unordered (p : Nat × Nat) : ¬ Prod.Lex (· < ·) (· < ·) p p := by
    intro less
    rcases (Prod.lex_def (r := (· < ·)) (s := (· < ·))).mp less with line | ⟨-, column⟩
    · exact Nat.lt_irrefl _ line
    · exact Nat.lt_irrefl _ column
  rcases Nat.lt_trichotomy a b with less | equal | greater
  · exact absurd (same ▸ lookup_onward one two less) (unordered _)
  · exact equal
  · exact absurd (same ▸ lookup_onward two one greater) (unordered _)

theorem lookup_end {offset : Nat} (beyond : source.utf8ByteSize ≤ offset) :
    lookup source offset = (lineOf source.toList, columnOf source.toList) := by
  rw [← lookup_at (List.append_nil source.toList).symm, String.utf8Len_toList, lookup, lookup, LineIndex.lookup, LineIndex.lookup]
  simp only [show (LineIndex.ofSource source).source = source from rfl, Nat.min_eq_right beyond, Nat.min_self]

def linesUpTo (source : String) (n : Nat) : List String := (List.range n).map fun line => lineText source (line + 1)

theorem joined_succ (n : Nat) : "\n".intercalate (linesUpTo source (n + 2)) =
    "\n".intercalate (linesUpTo source (n + 1)) ++ "\n" ++ lineText source (n + 2) := by
  have one_more : linesUpTo source (n + 2) = linesUpTo source (n + 1) ++ [lineText source (n + 2)] := by
    rw [linesUpTo, List.range_succ, List.map_append]
    rfl
  have nonempty : linesUpTo source (n + 1) ≠ [] := by
    rw [linesUpTo, List.range_succ]
    simp
  rw [one_more, String.intercalate_append_of_ne_nil nonempty (List.cons_ne_nil _ _), String.intercalate_singleton]

-- By induction on the text up to a place: the lines up to that of the place are the text up to the end of that line.
theorem joined_at (whole : source.toList = before ++ behind) (plain : '\r' ∉ source.toList) :
    "\n".intercalate (linesUpTo source (lineOf before)) = String.ofList (before ++ onLine behind) := by
  induction before using List.reverseRecOn generalizing behind with
  | nil =>
    have first := lineText_at whole plain
    rw [linesUpTo, lineOf, List.count_nil, List.range_one, List.map_singleton, String.intercalate_singleton]
    exact first
  | append_singleton before c ih =>
    have earlier := ih (by rw [whole, List.append_assoc, List.singleton_append])
    have here := lineText_at whole plain
    rw [lead_append] at here
    rw [lineOf, List.count_append] at here ⊢
    by_cases newline : c = '\n'
    · subst newline
      rw [if_pos rfl, List.nil_append] at here
      simp only [List.count_singleton_self] at here ⊢
      rw [joined_succ, here, ← lineOf, earlier, ← String.toList_inj]
      simp [onLine]
    · rw [List.count_singleton, if_neg (by simpa using newline), Nat.add_zero, ← lineOf, earlier]
      simp [onLine, newline]

-- A place behind some text is looked up as its line and its column; later places come later, so that no two are alike, and
-- an offset past the end is that of the end. In a text without carriage returns the lines with newlines between them are
-- the text again.
theorem positions_count (source : String) :
    (∀ before behind : String, source = before ++ behind →
      lookup source before.utf8ByteSize = (lineOf before.toList, columnOf before.toList)) ∧
    (∀ a b, Boundary source.toList a → Boundary source.toList b → a < b →
      Prod.Lex (· < ·) (· < ·) (lookup source a) (lookup source b)) ∧
    (∀ a b, Boundary source.toList a → Boundary source.toList b → lookup source a = lookup source b → a = b) ∧
    (∀ offset, source.utf8ByteSize ≤ offset → lookup source offset = (lineOf source.toList, columnOf source.toList)) ∧
    ('\r' ∉ source.toList → "\n".intercalate (linesUpTo source (lineOf source.toList)) = source) := by
  refine ⟨?_, fun _ _ => lookup_onward, fun _ _ => lookup_injective, fun _ => lookup_end, ?_⟩
  · intro before behind whole
    have parts : source.toList = before.toList ++ behind.toList := by rw [whole, String.toList_append]
    have found := lookup_at parts
    rwa [String.utf8Len_toList] at found
  · intro plain
    rw [joined_at (List.append_nil source.toList).symm plain]
    simp [onLine]

-- A character of two bytes and an empty line.
theorem positions_count_uneven : lookup "é\n\nb" 2 = (1, 2) ∧ lookup "é\n\nb" 4 = (3, 1) ∧
    Prod.Lex (· < ·) (· < ·) (lookup "é\n\nb" 2) (lookup "é\n\nb" 4) ∧ lookup "é\n\nb" 9 = (3, 2) ∧
    "\n".intercalate (linesUpTo "é\n\nb" 3) = "é\n\nb" := by
  obtain ⟨counted, later, -, past, joined⟩ := positions_count "é\n\nb"
  have one : Boundary "é\n\nb".toList 2 := ⟨['é'], ['\n', '\n', 'b'], by decide, by decide⟩
  have two : Boundary "é\n\nb".toList 4 := ⟨['é', '\n', '\n'], ['b'], by decide, by decide⟩
  exact ⟨counted "é" "\n\nb" (by decide), counted "é\n\n" "b" (by decide), later 2 4 one two (by decide),
    past 9 (by decide), joined (by decide)⟩

end StackScript.Text
