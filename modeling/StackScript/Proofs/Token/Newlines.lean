import StackScript.Proofs.Token.Tiling

-- A newline outside of lexemes parts a source: what is in front of it is scanned as if nothing followed, and what is behind
-- as if nothing came before.
namespace StackScript

open String (utf8Len)

-- Nothing, or a text that begins with a newline.
def Opens (text : List Char) : Prop := ∀ c, text.head? = some c → c = '\n'

theorem Opens.nil : Opens [] := by
  intro c here
  cases here

theorem Opens.newline (rest : List Char) : Opens ('\n' :: rest) := by
  intro c here
  cases here
  rfl

theorem Opens.any {more : List Char} {p : Char → Bool} (opens : Opens more) (other : p '\n' = false) :
    more.head?.any p = false := by
  cases known : more.head? with
  | none => rfl
  | some c => rw [opens c known, Option.any_some, other]

theorem any_append {rest more : List Char} {p : Char → Bool} (ended : rest.head?.any p = false)
    (opens : more.head?.any p = false) : (rest ++ more).head?.any p = false := by
  cases rest with
  | nil => exact opens
  | cons c rest => exact ended

-- A comment or a token that goes as far as it can does so too if a newline follows at the end of the text.
theorem Skipped.before {text rest more : List Char} (skipped : Skipped text rest) (opens : Opens more) :
    Skipped text (rest ++ more) := by
  induction skipped with
  | nil => exact .nil
  | blank blank _ ih => exact .blank blank ih
  | @comment body text rest plain ended _ ih =>
    refine .comment plain ?_ ih
    intro c here
    rw [← List.append_assoc] at here
    cases behind : text ++ rest with
    | nil =>
      rw [behind] at here
      exact opens c here
    | cons d others =>
      rw [behind] at here
      exact ended c (by rw [behind]; exact here)

theorem Token.continues_before {t : Token} {rest more : List Char} (alone : t.continues rest = false) (opens : Opens more) :
    t.continues (rest ++ more) = false := by
  cases t
  case integer =>
    rw [continues_integer, Bool.or_eq_false_iff] at alone ⊢
    refine ⟨any_append alone.1 (opens.any (by decide)), ?_⟩
    cases rest with
    | nil =>
      rw [List.nil_append, opens.any (by decide)]
      rfl
    | cons c rest =>
      rw [Bool.and_eq_false_iff] at alone ⊢
      exact alone.2.imp_right fun ended => any_append ended (opens.any (by decide))
  case comma | semicolon | colon | leftParen | rightParen | leftBrace | rightBrace | leftBracket | rightBracket | plus | minus
      | asterisk | equal | notEqual | lessEqual | greaterEqual | string => rfl
  all_goals exact any_append alone (opens.any (by decide))

namespace Scan

theorem skipped_passed {gap behind : List Char} (skipped : Skipped gap behind) (offset : Nat) (read : Array Lexeme) :
    lexemesFrom offset read (gap ++ behind) = lexemesFrom (offset + utf8Len gap) read behind := by
  induction skipped generalizing offset with
  | nil => rfl
  | @blank c text behind blank _ ih =>
    have known : front c (text ++ behind) = (.blank, 0) := by
      unfold front
      rw [if_pos blank]
    rw [List.cons_append, lexemesFrom, known]
    simp only [List.take_zero, List.drop_zero, ih, byteCount_eq]
    simp [Nat.add_assoc, Nat.add_comm c.utf8Size]
  | @comment body text behind plain ended _ ih =>
    have inside : ∀ c ∈ '/' :: body, decide (c ≠ '\n') = true := by
      intro c present
      rcases List.mem_cons.mp present with rfl | within
      · rfl
      · simpa using fun same : c = '\n' => plain (same ▸ within)
    have whole : ('/' :: body ++ (text ++ behind)).takeWhile (· ≠ '\n') = '/' :: body :=
      takeWhile_exact inside fun c here => by simpa using ended c here
    have known : front '/' ('/' :: body ++ (text ++ behind)) = (.blank, ('/' :: body).length) :=
      congrArg (fun run => (Front.blank, run.length)) whole
    have split : '/' :: '/' :: (body ++ text) ++ behind = '/' :: ('/' :: body ++ (text ++ behind)) := by simp
    have bytes : utf8Len ('/' :: '/' :: (body ++ text)) = utf8Len ('/' :: '/' :: body) + utf8Len text := by
      rw [← String.utf8Len_append]
      rfl
    rw [split, lexemesFrom, known]
    simp only [List.take_left, List.drop_left, byteCount_eq]
    rw [ih, bytes, Nat.add_assoc]

theorem written_read {t : Token} {text behind : List Char} (written : t.Written text) (alone : t.continues behind = false)
    (offset : Nat) (read : Array Lexeme) : lexemesFrom offset read (text ++ behind) =
      lexemesFrom (offset + utf8Len text) (read.push ⟨t, ⟨offset, offset + utf8Len text⟩⟩) behind := by
  obtain ⟨c, more, rfl, known⟩ := written_found written alone
  rw [List.cons_append, lexemesFrom, known]
  simp only [List.take_left, List.drop_left, byteCount_eq]

theorem tiled_read {offset : Nat} {text more : List Char} {ls : List Lexeme} (tiled : Tiled offset text ls)
    (opens : Opens more) (read : Array Lexeme) :
    lexemesFrom offset read (text ++ more) = lexemesFrom (offset + utf8Len text) (read ++ ls.toArray) more := by
  induction tiled generalizing read with
  | @done offset gap skipped =>
    have passed := skipped_passed (skipped.before opens) offset read
    rw [List.nil_append] at passed
    rw [passed]
    simp
  | @lexeme offset gap text behind t ls skipped written alone _ ih =>
    have passed := skipped_passed (skipped.before opens) offset read
    rw [List.append_assoc] at passed
    rw [List.append_assoc, List.append_assoc, passed, written_read written (Token.continues_before alone opens), ih,
      String.utf8Len_append, String.utf8Len_append, ← Nat.add_assoc, ← Nat.add_assoc]
    simp

end Scan

def Lexeme.raised (n : Nat) (l : Lexeme) : Lexeme := ⟨l.token, ⟨l.span.start + n, l.span.stop + n⟩⟩

-- By induction on the scan: offsets are only added to.
theorem Scan.lexemesFrom_raised (n offset : Nat) (first read : Array Lexeme) (text : List Char) :
    lexemesFrom (offset + n) (first ++ read.map (Lexeme.raised n)) text = match lexemesFrom offset read text with
      | .ok found => .ok (first ++ found.map (Lexeme.raised n))
      | .error e => .error ⟨e.position + n, e.snippet⟩ := by
  fun_induction lexemesFrom offset read text with
  | case1 => rw [lexemesFrom]
  | case2 offset read c rest taken text stop same ih =>
    rw [lexemesFrom, same]
    simp only
    rw [Nat.add_right_comm]
    exact ih
  | case3 offset read c rest taken text stop t same ih =>
    rw [lexemesFrom, same]
    simp only
    rw [Nat.add_right_comm, ← ih, Array.map_push, Array.append_push]
    rfl
  | case4 offset read c rest taken text same => rw [lexemesFrom, same]

theorem lexemes_parted {a : String} {found : Array Lexeme} (b : String) (scanned : lexemes a = .ok found) :
    lexemes (a ++ "\n" ++ b) = match lexemes b with
      | .ok more => .ok (found ++ more.map (Lexeme.raised (a.utf8ByteSize + 1)))
      | .error e => .error ⟨e.position + (a.utf8ByteSize + 1), e.snippet⟩ := by
  obtain ⟨ls, all, tiled⟩ := Scan.lexemesFrom_tiled 0 #[] a.toList scanned
  rw [Array.toList_empty, List.nil_append] at all
  have first := Scan.tiled_read tiled (Opens.newline b.toList) #[]
  rw [Nat.zero_add, String.utf8Len_toList, ← all, Array.toArray_toList, Array.empty_append] at first
  have newline : Scan.lexemesFrom a.utf8ByteSize found ('\n' :: b.toList) =
      Scan.lexemesFrom (a.utf8ByteSize + 1) found b.toList := by
    rw [Scan.lexemesFrom]
    rfl
  have second := Scan.lexemesFrom_raised (a.utf8ByteSize + 1) 0 found #[] b.toList
  rw [Nat.zero_add, Array.map_empty, Array.append_empty] at second
  have text : (a ++ "\n" ++ b).toList = a.toList ++ '\n' :: b.toList := by simp
  rw [lexemes, text, first, newline, second]
  rfl

-- A newline behind a source that can be scanned parts it from any text: the lexemes of the text follow, with their offsets
-- behind those of the source, or what is wrong with the text is wrong there, with the same snippet and the same advice.
theorem newline_parts (a b : String) (found : Array Lexeme) (scanned : lexemes a = .ok found) :
    (∀ more, lexemes b = .ok more →
      lexemes (a ++ "\n" ++ b) = .ok (found ++ more.map (Lexeme.raised (a.utf8ByteSize + 1)))) ∧
    ∀ e, lexemes b = .error e → ∃ f, lexemes (a ++ "\n" ++ b) = .error f ∧ f.snippet = e.snippet ∧
      f.suggestion = e.suggestion ∧ f.position = e.position + (a.utf8ByteSize + 1) := by
  have parted := lexemes_parted b scanned
  constructor
  · intro more known
    rwa [known] at parted
  · intro e known
    rw [known] at parted
    exact ⟨_, parted, rfl, rfl, rfl⟩

-- Behind a comment, with an operator that could have gone on and a literal that is not closed.
theorem newline_parts_commented :
    lexemes ("\"é\" // =" ++ "\n" ++ "= 1") =
      .ok #[⟨.string "é", ⟨0, 4⟩⟩, ⟨.assign, ⟨10, 11⟩⟩, ⟨.integer 1, ⟨12, 13⟩⟩] ∧
    ∃ f, lexemes ("\"é\" // =" ++ "\n" ++ "= \"a\\") = .error f ∧ f.snippet = "\"a\\" ∧ f.position = 12 := by
  have scanned : lexemes "\"é\" // =" = .ok #[⟨.string "é", ⟨0, 4⟩⟩] := by decide +kernel
  have one : lexemes "= 1" = .ok #[⟨.assign, ⟨0, 1⟩⟩, ⟨.integer 1, ⟨2, 3⟩⟩] := by decide +kernel
  have two : lexemes "= \"a\\" = .error ⟨2, "\"a\\"⟩ := by decide +kernel
  obtain ⟨f, failed, snippet, -, position⟩ := (newline_parts _ _ _ scanned).2 _ two
  exact ⟨((newline_parts _ _ _ scanned).1 _ one).trans (by decide +kernel), f, failed, snippet, position⟩

end StackScript
