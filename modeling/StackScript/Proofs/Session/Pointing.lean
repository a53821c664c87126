import StackScript.Proofs.Compiler.Blaming
import StackScript.Proofs.Text.Lines
import StackScript.Proofs.Token.Places
import StackScript.Session

-- A report of what is wrong with a text points at the text to blame.
namespace StackScript

open String (utf8Len)

namespace Text

def aboveCarets (row marks : List Char) : List Char := ((row.zip marks).filter fun p => p.2 = '^').map Prod.fst

section
variable {row marks : List Char}

theorem aboveCarets_append {row' marks' : List Char} (same : row.length = marks.length) :
    aboveCarets (row ++ row') (marks ++ marks') = aboveCarets row marks ++ aboveCarets row' marks' := by
  rw [aboveCarets, List.zip_append same, List.filter_append, List.map_append]
  rfl

theorem aboveCarets_blank (plain : '^' ∉ marks) : aboveCarets row marks = [] := by
  rw [aboveCarets, List.map_eq_nil_iff, List.filter_eq_nil_iff]
  intro p present caret
  have below := (List.of_mem_zip present).2
  rw [of_decide_eq_true caret] at below
  exact plain below

theorem aboveCarets_under (text behind : List Char) :
    aboveCarets (text ++ behind) (List.replicate text.length '^') = text := by
  induction text with
  | nil => exact aboveCarets_blank (by simp)
  | cons c rest ih =>
    rw [aboveCarets] at ih
    simp [aboveCarets, List.replicate_succ, ih]

end

theorem plain_number (n : Nat) : '\n' ∉ (toString n).toList := by
  intro present
  have digit : '\n'.isDigit = true := by
    apply Nat.isDigit_of_mem_toDigits (b := 10) (n := n) (by decide) (by decide)
    rw [← Nat.toList_repr]
    exact present
  cases digit

theorem onLine_append {text : List Char} (single : '\n' ∉ text) (behind : List Char) :
    onLine (text ++ behind) = text ++ onLine behind := by
  rw [onLine, List.takeWhile_append_of_pos]
  · rfl
  · intro c present
    simpa using fun same : c = '\n' => single (same ▸ present)

-- The last two lines of a report on a piece of a text: the line of the text, and what marks the piece.
def rowOf (before text behind : List Char) : String :=
  s!"{lineOf before} | {String.ofList (lead before ++ (text ++ onLine behind))}"

def padding (line : Nat) : String := rule (toString line).length ' '

def marksOf (before text : List Char) : String :=
  padding (lineOf before) ++ " | " ++ (rule (lead before).length ' ' ++ rule text.length '^')

theorem rowOf_toList (before text behind : List Char) : (rowOf before text behind).toList =
    (toString (lineOf before)).toList ++ [' ', '|', ' '] ++ (lead before ++ (text ++ onLine behind)) := by
  simp [rowOf, toString]

theorem marksOf_toList (before text : List Char) : (marksOf before text).toList =
    List.replicate (toString (lineOf before)).length ' ' ++ [' ', '|', ' '] ++
      (List.replicate (lead before).length ' ' ++ List.replicate text.length '^') := by
  simp [marksOf, padding, rule]

theorem rowOf_plain {before text : List Char} (behind : List Char) (single : '\n' ∉ text) :
    '\n' ∉ (rowOf before text behind).toList := by
  rw [rowOf_toList]
  simp only [List.mem_append, not_or]
  exact ⟨⟨plain_number _, by decide⟩, plain_lead before, single, plain_onLine behind⟩

theorem marksOf_plain (before text : List Char) : '\n' ∉ (marksOf before text).toList := by
  rw [marksOf_toList]
  simp [List.mem_replicate]

theorem marksOf_carets (before text : List Char) : (marksOf before text).toList.count '^' = text.length := by
  rw [marksOf_toList]
  simp [List.count_append, List.count_replicate]

theorem aboveCarets_rowOf (before text behind : List Char) :
    aboveCarets (rowOf before text behind).toList (marksOf before text).toList = text := by
  have gutter : ((toString (lineOf before)).toList ++ [' ', '|', ' ']).length =
      (List.replicate (toString (lineOf before)).length ' ' ++ [' ', '|', ' ']).length := by
    rw [List.length_append, List.length_append, List.length_replicate, String.length_toList]
  rw [rowOf_toList, marksOf_toList, aboveCarets_append gutter, aboveCarets_blank (by simp [List.mem_replicate]),
    aboveCarets_append (by simp), aboveCarets_blank (by simp [List.mem_replicate]), aboveCarets_under]
  rfl

end Text

theorem Failure.render_at {e : Failure} {source : String} {before text behind : List Char} (file : Option String)
    (plain : '\r' ∉ source.toList) (whole : source.toList = before ++ (text ++ behind))
    (blamed : e.span? = some ⟨utf8Len before, utf8Len (before ++ text)⟩) (nonempty : text ≠ []) (single : '\n' ∉ text) :
    let position : Text.Position := ⟨Text.lineOf before, Text.columnOf before, file⟩
    let pad := Text.padding position.line
    let row := Text.rowOf before text behind
    let marks := Text.marksOf before text
    e.render source file = s!"error: {e.message}\n{pad}--> {position.text}\n{pad} |\n{row}\n{marks}\n" := by
  have wide : max 1 text.length = text.length := Nat.max_eq_right (List.length_pos_of_ne_nil nonempty)
  rw [render, blamed]
  simp only [Text.positionOf, Text.lookup_at whole, Text.lineText_at whole plain, Text.width_at whole, wide,
    Text.onLine_append single, Text.columnOf, Nat.add_sub_cancel, Text.rowOf, Text.marksOf, Text.padding]
  simp [String.append_assoc, toString]

theorem Span.lies_closed (source : List Char) : Span.Closed (Span.Lies source) :=
  ⟨.unknown source, .merge, .after⟩

theorem Program.ofSource_places (source : String) :
    match ofSource source with
    | .ok p => bodyPlaces (Span.Lies source.toList) p.statements
    | .error e => ∃ span, e.span? = some span ∧ span.Lies source.toList := by
  have placed := lexemes_placed source
  rw [ofSource]
  cases scanned : lexemes source with
  | error e =>
    rw [scanned] at placed
    exact ⟨_, rfl, placed⟩
  | ok found =>
    rw [scanned] at placed
    have places := Parsed.ofLexemes_places (Span.lies_closed source.toList) fun l present =>
      placed l (Array.mem_toList_iff.mp present)
    simp only [ofLexemes]
    cases errors : (Parsed.ofLexemes found.toList).errors with
    | nil => exact places.statements
    | cons e rest => exact ⟨e.span, rfl, places.errors e (by simp [errors])⟩

theorem Bytecode.ofSource_places {source : String} {e : Failure} (failed : ofSource source = .error e)
    (reported : ∀ d, e ≠ .defect d) : ∃ span, e.span? = some span ∧ span.Lies source.toList := by
  have places := Program.ofSource_places source
  rw [ofSource] at failed
  cases read : Program.ofSource source with
  | error problem =>
    rw [read] at failed places
    cases failed
    exact places
  | ok p =>
    rw [read] at failed places
    simp only [bind, Except.bind, Compiler.after] at failed
    cases compiled : Compiler.new.compile p with
    | ok _ c =>
      rw [compiled] at failed
      cases failed
    | error r c =>
      rw [compiled] at failed
      cases r with
      | error problem =>
        cases failed
        exact ⟨problem.span, rfl, Compiler.compile_blames places compiled⟩
      | defect d =>
        cases failed
        exact absurd rfl (reported d)

-- What is wrong with a text is blamed on a piece of it, be it that no token begins there, that it cannot be read or that it
-- cannot be compiled. A report tells the line and the column of the piece; it shows the line, and on the next one carets
-- below the piece and below nothing else, if the piece is not empty and on one line.
theorem diagnostics_point {source : String} {e : Failure} (file : Option String) (plain : '\r' ∉ source.toList)
    (failed : Bytecode.ofSource source = .error e) (reported : ∀ d, e ≠ .defect d) :
    ∃ before text behind : String, source = before ++ (text ++ behind) ∧
      e.span? = some ⟨before.utf8ByteSize, (before ++ text).utf8ByteSize⟩ ∧
      (text ≠ "" → '\n' ∉ text.toList →
        let position : Text.Position := ⟨Text.lineOf before.toList, Text.columnOf before.toList, file⟩
        let pad := Text.padding position.line
        let row := Text.rowOf before.toList text.toList behind.toList
        let marks := Text.marksOf before.toList text.toList
        e.render source file = s!"error: {e.message}\n{pad}--> {position.text}\n{pad} |\n{row}\n{marks}\n" ∧
          '\n' ∉ row.toList ∧ '\n' ∉ marks.toList ∧ Text.aboveCarets row.toList marks.toList = text.toList ∧
          marks.toList.count '^' = text.length) := by
  obtain ⟨span, blamed, lies⟩ := Bytecode.ofSource_places failed reported
  obtain ⟨before, text, behind, whole, rfl⟩ := lies.covers
  refine ⟨.ofList before, .ofList text, .ofList behind, ?_, ?_, ?_⟩
  · rw [← String.ofList_append, ← String.ofList_append, ← whole, String.ofList_toList]
  · rw [← String.ofList_append, String.utf8ByteSize_ofList, String.utf8ByteSize_ofList]
    exact blamed
  · simp only [String.toList_ofList, String.length_ofList]
    intro nonempty single
    have something : text ≠ [] := by
      rintro rfl
      exact nonempty rfl
    exact ⟨Failure.render_at file plain whole blamed something single, Text.rowOf_plain behind single,
      Text.marksOf_plain before text, Text.aboveCarets_rowOf before text behind, Text.marksOf_carets before text⟩

-- A name that is not declared, behind a character of two bytes.
theorem diagnostics_point_undefined : ∃ e before text behind, Bytecode.ofSource "\"é\" + b" = .error e ∧
    "\"é\" + b" = before ++ (text ++ behind) ∧ e.span? = some ⟨7, 8⟩ ∧ before.utf8ByteSize = 7 ∧
    Text.aboveCarets (Text.rowOf before.toList text.toList behind.toList).toList
      (Text.marksOf before.toList text.toList).toList = text.toList ∧ text ≠ "" := by
  have fails : (((Bytecode.ofSource "\"é\" + b").map fun _ => none).tryCatch fun e => .ok e.span?).toOption =
      some (some ⟨7, 8⟩) := by decide +kernel
  cases failed : Bytecode.ofSource "\"é\" + b" with
  | ok b =>
    rw [failed] at fails
    cases fails
  | error e =>
    rw [failed] at fails
    have blamed : e.span? = some ⟨7, 8⟩ := Option.some.inj fails
    have reported (d : Defect) : e ≠ .defect d := by
      rintro rfl
      cases blamed
    obtain ⟨before, text, behind, whole, span, points⟩ := diagnostics_point none (by decide) failed reported
    rw [blamed] at span
    simp only [Option.some.injEq, Span.mk.injEq, String.utf8ByteSize_append] at span
    have nonempty : text ≠ "" := by
      rintro rfl
      simp at span
      omega
    have single : '\n' ∉ text.toList := by
      intro present
      have within : '\n' ∈ ("\"é\" + b").toList := by
        rw [whole]
        simp [present]
      revert within
      decide
    obtain ⟨-, -, -, above, -⟩ := points nonempty single
    exact ⟨e, before, text, behind, rfl, whole, blamed, span.1.symm, above, nonempty⟩

end StackScript
