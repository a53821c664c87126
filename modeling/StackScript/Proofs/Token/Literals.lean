import Mathlib.Data.List.Basic
import StackScript.Token.Scan

-- String literals: which texts stand for a string, and that these are the ones that are read.
namespace StackScript

-- How a character stands in a literal. Quotes and backslashes are escaped; newlines, tabs and carriage returns are if that
-- is chosen.
def writtenChar (c : Char) (chosen : Bool) : List Char :=
  match c, chosen with
  | '"', _ => ['\\', '"']
  | '\\', _ => ['\\', '\\']
  | '\n', true => ['\\', 'n']
  | '\t', true => ['\\', 't']
  | '\r', true => ['\\', 'r']
  | c, _ => [c]

-- The inside of a literal for a text whose characters are marked as chosen or not.
def writtenText (marked : List (Char × Bool)) : List Char := marked.flatMap fun m => writtenChar m.1 m.2

def literal (marked : List (Char × Bool)) : List Char := '"' :: (writtenText marked ++ ['"'])

-- The pattern of what stands between quotes: no quote but behind a backslash, and behind each backslash something that is no
-- newline.
inductive Quotable : List Char → Prop where
  | nil : Quotable []
  | plain {c : Char} {rest : List Char} : c ≠ '"' → c ≠ '\\' → Quotable rest → Quotable (c :: rest)
  | escape {letter : Char} {rest : List Char} : letter ≠ '\n' → Quotable rest → Quotable ('\\' :: letter :: rest)

theorem writtenText_cons (m : Char × Bool) (marked : List (Char × Bool)) :
    writtenText (m :: marked) = writtenChar m.1 m.2 ++ writtenText marked := List.flatMap_cons

theorem writtenChar_plain {c : Char} (quote : c ≠ '"') (backslash : c ≠ '\\') : writtenChar c false = [c] := by
  unfold writtenChar
  split
  all_goals first | contradiction | rfl

theorem writtenChar_cases (c : Char) (chosen : Bool) : (writtenChar c chosen = [c] ∧ c ≠ '"' ∧ c ≠ '\\') ∨
    ∃ letter, writtenChar c chosen = ['\\', letter] ∧ letter ≠ '\n' ∧
      ∀ rest read, Scan.unescape ('\\' :: letter :: rest) read = Scan.unescape rest (c :: read) := by
  unfold writtenChar
  split
  case h_1 => exact .inr ⟨'"', rfl, by decide, fun _ _ => rfl⟩
  case h_2 => exact .inr ⟨'\\', rfl, by decide, fun _ _ => rfl⟩
  case h_3 => exact .inr ⟨'n', rfl, by decide, fun _ _ => rfl⟩
  case h_4 => exact .inr ⟨'t', rfl, by decide, fun _ _ => rfl⟩
  case h_5 => exact .inr ⟨'r', rfl, by decide, fun _ _ => rfl⟩
  case h_6 quote backslash _ _ _ => exact .inl ⟨rfl, quote, backslash⟩

theorem writtenText_quotable (marked : List (Char × Bool)) : Quotable (writtenText marked) := by
  induction marked with
  | nil => exact .nil
  | cons m marked ih =>
    rw [writtenText_cons]
    rcases writtenChar_cases m.1 m.2 with ⟨same, quote, backslash⟩ | ⟨letter, same, newline, -⟩
    · rw [same]
      exact .plain quote backslash ih
    · rw [same]
      exact .escape newline ih

namespace Scan

theorem literalEnd_plain {c : Char} (quote : c ≠ '"') (backslash : c ≠ '\\') (rest : List Char) (n : Nat) :
    literalEnd (c :: rest) n = literalEnd rest (n + 1) := by
  rw [literalEnd]
  all_goals simp_all

theorem unescape_plain {c : Char} (backslash : c ≠ '\\') (rest read : List Char) :
    unescape (c :: rest) read = unescape rest (c :: read) := by
  rw [unescape]
  all_goals simp_all

theorem literalEnd_quotable {inner : List Char} (quotable : Quotable inner) (rest : List Char) (n : Nat) :
    literalEnd (inner ++ '"' :: rest) n = (n + inner.length + 1, true) := by
  induction quotable generalizing n with
  | nil => rfl
  | plain quote backslash _ ih =>
    rw [List.cons_append, literalEnd_plain quote backslash, ih, List.length_cons, Nat.add_right_comm n, Nat.add_assoc n]
  | escape newline _ ih =>
    rw [List.cons_append, List.cons_append, literalEnd, if_neg newline, ih, List.length_cons, List.length_cons,
      Nat.add_right_comm n, Nat.add_assoc n]

theorem unescape_written (marked : List (Char × Bool)) (read : List Char) :
    unescape (writtenText marked) read = some (read.reverse ++ marked.map Prod.fst) := by
  induction marked generalizing read with
  | nil => simp [writtenText, unescape]
  | cons m marked ih =>
    rw [writtenText_cons]
    rcases writtenChar_cases m.1 m.2 with ⟨same, -, backslash⟩ | ⟨letter, same, -, known⟩
    · rw [same, List.singleton_append, unescape_plain backslash, ih]
      simp
    · rw [same, List.cons_append, List.singleton_append, known, ih]
      simp

theorem unescape_letter {letter : Char} {rest read text : List Char}
    (known : unescape ('\\' :: letter :: rest) read = some text) :
    ∃ c, writtenChar c true = ['\\', letter] ∧ unescape rest (c :: read) = some text := by
  rw [unescape.eq_def] at known
  simp only at known
  split at known
  · exact ⟨'\n', rfl, known⟩
  · exact ⟨'\t', rfl, known⟩
  · exact ⟨'\r', rfl, known⟩
  · exact ⟨'"', rfl, known⟩
  · exact ⟨'\\', rfl, known⟩
  · cases known

-- Where a closing quote is found, what is in front of it stands for nothing, or for a text that can be written so. By
-- induction on the search.
theorem literalEnd_closed {rest : List Char} {n taken : Nat} (found : literalEnd rest n = (taken, true)) :
    ∃ inner behind, rest = inner ++ '"' :: behind ∧ taken = n + inner.length + 1 ∧
      ∀ read text, unescape inner read = some text →
        ∃ marked, inner = writtenText marked ∧ text = read.reverse ++ marked.map Prod.fst := by
  fun_induction literalEnd rest n with
  | case1 => cases found
  | case2 behind n =>
    cases found
    refine ⟨[], behind, rfl, rfl, ?_⟩
    intro read text known
    cases known
    exact ⟨[], rfl, by simp⟩
  | case3 => cases found
  | case4 => cases found
  | case5 letter rest n newline ih =>
    obtain ⟨inner, behind, rfl, rfl, means⟩ := ih found
    refine ⟨'\\' :: letter :: inner, behind, rfl, by simp only [List.length_cons]; omega, ?_⟩
    intro read text known
    obtain ⟨c, same, known⟩ := unescape_letter known
    obtain ⟨marked, rfl, rfl⟩ := means _ _ known
    refine ⟨(c, true) :: marked, ?_, by simp⟩
    rw [writtenText_cons, same]
    rfl
  | case6 c rest n quote last escape ih =>
    obtain ⟨inner, behind, rfl, rfl, means⟩ := ih found
    have backslash : c ≠ '\\' := by
      intro same
      cases inner with
      | nil => exact escape '"' behind same rfl
      | cons d inner => exact escape d _ same rfl
    refine ⟨c :: inner, behind, rfl, by simp only [List.length_cons]; omega, ?_⟩
    intro read text known
    rw [unescape_plain backslash] at known
    obtain ⟨marked, rfl, rfl⟩ := means _ _ known
    refine ⟨(c, false) :: marked, ?_, by simp⟩
    rw [writtenText_cons, writtenChar_plain quote backslash]
    rfl

theorem stringFront_written (marked : List (Char × Bool)) (rest : List Char) :
    stringFront (writtenText marked ++ '"' :: rest) =
      (.token (.string (String.ofList (marked.map Prod.fst))), (writtenText marked).length + 1) := by
  rw [stringFront, literalEnd_quotable (writtenText_quotable marked)]
  simp [unescape_written]

theorem stringFront_token {rest : List Char} {t : Token} {taken : Nat} (known : stringFront rest = (.token t, taken)) :
    ∃ marked behind, rest = writtenText marked ++ '"' :: behind ∧ taken = (writtenText marked).length + 1 ∧
      t = .string (String.ofList (marked.map Prod.fst)) := by
  rw [stringFront] at known
  rcases found : literalEnd rest 0 with ⟨stop, closed⟩
  cases closed with
  | false =>
    rw [found] at known
    cases known
  | true =>
    obtain ⟨inner, behind, rfl, rfl, means⟩ := literalEnd_closed found
    rw [found] at known
    simp only [if_true, Nat.zero_add, Nat.add_sub_cancel, List.take_left] at known
    split at known
    · rename_i text unescaped
      obtain ⟨marked, rfl, rfl⟩ := means _ _ unescaped
      cases known
      exact ⟨marked, behind, rfl, rfl, rfl⟩
    · cases known

end Scan
end StackScript
