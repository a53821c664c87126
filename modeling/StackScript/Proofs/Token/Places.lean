import Mathlib.Data.String.Basic
import StackScript.Token.Scan

-- Lexemes, and text that is no token, begin and end where characters of the source do.
namespace StackScript

open String (utf8Len)

-- A character of the text begins at this byte, or the text ends there.
def Text.Boundary (source : List Char) (n : Nat) : Prop := ∃ before behind, source = before ++ behind ∧ n = utf8Len before

structure Span.Lies (source : List Char) (s : Span) : Prop where
  start : Text.Boundary source s.start
  stop : Text.Boundary source s.stop
  ordered : s.start ≤ s.stop

namespace Span.Lies

variable {source : List Char} {a b : Span}

theorem unknown (source : List Char) : Span.unknown.Lies source :=
  ⟨⟨[], source, rfl, rfl⟩, ⟨[], source, rfl, rfl⟩, Nat.le_refl _⟩

theorem after (lies : a.Lies source) : a.after.Lies source := ⟨lies.stop, lies.stop, Nat.le_refl _⟩

theorem merge (left : a.Lies source) (right : b.Lies source) : (a.merge b).Lies source := by
  refine ⟨?_, ?_, ?_⟩
  · change Text.Boundary source (min a.start b.start)
    rcases min_choice a.start b.start with first | second
    · rw [first]
      exact left.start
    · rw [second]
      exact right.start
  · change Text.Boundary source (max a.stop b.stop)
    rcases max_choice a.stop b.stop with first | second
    · rw [first]
      exact left.stop
    · rw [second]
      exact right.stop
  · exact (min_le_left _ _).trans (left.ordered.trans (le_max_left _ _))

theorem of_text (before text behind : List Char) :
    (⟨utf8Len before, utf8Len before + utf8Len text⟩ : Span).Lies (before ++ (text ++ behind)) :=
  ⟨⟨before, text ++ behind, rfl, rfl⟩,
    ⟨before ++ text, behind, (List.append_assoc _ _ _).symm, (String.utf8Len_append _ _).symm⟩, Nat.le_add_right _ _⟩

theorem covers (lies : a.Lies source) : ∃ before text behind, source = before ++ (text ++ behind) ∧
    a = ⟨utf8Len before, utf8Len (before ++ text)⟩ := by
  obtain ⟨start, stop⟩ := a
  obtain ⟨⟨before, rest, whole, first⟩, ⟨upto, behind, again, second⟩, ordered⟩ := lies
  dsimp only at first second ordered
  rcases List.append_eq_append_iff.mp (whole.symm.trans again) with ⟨text, rfl, rfl⟩ | ⟨text, rfl, -⟩
  · exact ⟨before, text, behind, whole, by rw [first, second]⟩
  · rw [first, second, String.utf8Len_append] at ordered
    have nothing : text = [] := String.utf8Len_eq_zero.mp (by omega)
    subst nothing
    exact ⟨upto, [], behind, again, by rw [first, second, List.append_nil]⟩

end Span.Lies

namespace Scan

theorem byteCount_eq (text : List Char) : byteCount text = utf8Len text := by
  have each (n : Nat) : text.foldl (fun n c => n + c.utf8Size) n = n + utf8Len text := by
    induction text generalizing n with
    | nil => rfl
    | cons c rest ih =>
      rw [List.foldl_cons, ih, String.utf8Len_cons]
      omega
  rw [byteCount, each, Nat.zero_add]

theorem front_splits (before : List Char) (c : Char) (rest : List Char) (taken : Nat) :
    before ++ c :: rest = before ++ ((c :: rest.take taken) ++ rest.drop taken) := by
  rw [List.cons_append, List.take_append_drop]

theorem front_lies (before : List Char) (c : Char) (rest : List Char) (taken : Nat) :
    (⟨utf8Len before, utf8Len before + byteCount (c :: rest.take taken)⟩ : Span).Lies (before ++ c :: rest) := by
  rw [front_splits before c rest taken, byteCount_eq]
  exact .of_text before _ _

def Placed (source : List Char) : Except LexError (Array Lexeme) → Prop
  | .ok found => ∀ l ∈ found, l.span.Lies source
  | .error e => Span.Lies source ⟨e.position, e.position + max 1 e.snippet.utf8ByteSize⟩

-- By induction on the scan: what is behind and what is left make up the source.
theorem lexemesFrom_placed {source : List Char} (offset : Nat) (read : Array Lexeme) (text before : List Char)
    (whole : source = before ++ text) (here : offset = utf8Len before) (known : ∀ l ∈ read, l.span.Lies source) :
    Placed source (lexemesFrom offset read text) := by
  fun_induction lexemesFrom offset read text generalizing before with
  | case1 => exact known
  | case2 offset read c rest taken text stop same ih =>
    refine ih (before ++ text) ?_ ?_ known
    · rw [whole, front_splits before c rest taken, List.append_assoc]
    · rw [String.utf8Len_append, ← byteCount_eq text, ← here]
  | case3 offset read c rest taken text stop t same ih =>
    refine ih (before ++ text) ?_ ?_ ?_
    · rw [whole, front_splits before c rest taken, List.append_assoc]
    · rw [String.utf8Len_append, ← byteCount_eq text, ← here]
    · intro l present
      rcases Array.mem_push.mp present with earlier | rfl
      · exact known l earlier
      · have lies := front_lies before c rest taken
        rw [← whole, ← here] at lies
        exact lies
  | case4 offset read c rest taken text same =>
    have lies := front_lies before c rest taken
    rw [← whole, ← here] at lies
    have nonempty : 1 ≤ byteCount text := by
      have size := c.utf8Size_pos
      rw [byteCount_eq, String.utf8Len_cons]
      omega
    rw [Placed, String.utf8ByteSize_ofList, ← byteCount_eq, Nat.max_eq_right nonempty]
    exact lies

end Scan

theorem lexemes_placed (source : String) : Scan.Placed source.toList (lexemes source) :=
  Scan.lexemesFrom_placed 0 #[] source.toList [] rfl rfl (by simp)

end StackScript
