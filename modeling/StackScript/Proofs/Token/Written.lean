import Mathlib.Data.List.TakeWhile
import StackScript.Proofs.Token.Literals
import StackScript.Proofs.Token.Scanning

-- How tokens are written, and what may stand between them. What the scanner finds at the front of a text is a token as it is
-- written, as long as it can be, or something to skip; and what is written so is found.
namespace StackScript

def Token.wording : Token → Option String
  | letWord => some "let"
  | varWord => some "var"
  | fnWord => some "fn"
  | trueWord => some "true"
  | falseWord => some "false"
  | ifWord => some "if"
  | elseWord => some "else"
  | returnWord => some "return"
  | assign => some "="
  | comma => some ","
  | semicolon => some ";"
  | colon => some ":"
  | leftParen => some "("
  | rightParen => some ")"
  | leftBrace => some "\x7b"
  | rightBrace => some "\x7d"
  | leftBracket => some "["
  | rightBracket => some "]"
  | t => t.operator?

structure Numeral (digits : List Char) : Prop where
  nonempty : digits ≠ []
  digits : ∀ c ∈ digits, c.isDigit = true

inductive Token.Written : Token → List Char → Prop where
  | wording {t : Token} {word : String} : t.wording = some word → Token.Written t word.toList
  | identifier {name : String} : plainName name = true → Token.Written (.identifier name) name.toList
  | integer {digits : List Char} : Numeral digits → Scan.digitsValue digits 0 < Nat.pow 2 31 →
      Token.Written (.integer (.ofNat (Scan.digitsValue digits 0))) digits
  | float {whole fraction : List Char} : Numeral whole → Numeral fraction →
      Token.Written (.float (.ofRatio (Scan.digitsValue (whole ++ fraction) 0) (Nat.pow 10 fraction.length)))
        (whole ++ '.' :: fraction)
  | string {marked : List (Char × Bool)} : Token.Written (.string (String.ofList (marked.map Prod.fst))) (literal marked)

-- Whether what stands behind a token would be part of it: more of a word or of a number, a fraction, an equals sign where one
-- makes another operator, or a slash that makes a comment.
def Token.continues (t : Token) (behind : List Char) : Bool :=
  match t with
  | letWord | varWord | fnWord | trueWord | falseWord | ifWord | elseWord | returnWord | identifier _ =>
    behind.head?.any Scan.continuesName
  | integer _ => behind.head?.any Char.isDigit || (behind.head?.any (· = '.') && behind.tail.head?.any Char.isDigit)
  | float _ => behind.head?.any Char.isDigit
  | assign | bang | less | greater => behind.head?.any (· = '=')
  | slash => behind.head?.any (· = '/')
  | _ => false

@[simp] theorem Token.continues_integer (n : Int32) (behind : List Char) : (integer n).continues behind =
    (behind.head?.any Char.isDigit || (behind.head?.any (· = '.') && behind.tail.head?.any Char.isDigit)) := rfl

-- Blanks, and comments that run up to a newline or the end of the source.
inductive Skipped : (text behind : List Char) → Prop where
  | nil {behind : List Char} : Skipped [] behind
  | blank {c : Char} {text behind : List Char} : Scan.isBlank c = true → Skipped text behind → Skipped (c :: text) behind
  | comment {body text behind : List Char} : '\n' ∉ body → (∀ c, (text ++ behind).head? = some c → c = '\n') →
      Skipped text behind → Skipped ('/' :: '/' :: (body ++ text)) behind

namespace Scan

variable {c : Char} {rest behind : List Char} {t : Token} {taken : Nat}

theorem head_of_any {p : Char → Bool} (ended : behind.head?.any p = false) : ∀ c, behind.head? = some c → p c = false := by
  intro c here
  rw [here] at ended
  exact ended

theorem absent_of_any {d : Char} (ended : behind.head?.any (· = d) = false) : behind.head? ≠ some d := by
  intro here
  simpa using head_of_any ended d here

theorem any_of_other {d : Char} (other : ∀ tail, behind = d :: tail → False) : behind.head?.any (· = d) = false := by
  cases behind with
  | nil => rfl
  | cons e tail => simpa using fun same : e = d => other tail (by rw [same])

theorem exists_run (p : Char → Bool) (text : List Char) : ∃ run tail, text = run ++ tail ∧ text.takeWhile p = run ∧
    (∀ c ∈ run, p c = true) ∧ tail.head?.any p = false := by
  refine ⟨text.takeWhile p, text.dropWhile p, List.takeWhile_append_dropWhile.symm, rfl,
    fun c present => List.mem_takeWhile_imp present, ?_⟩
  have stops := List.head?_dropWhile_not p text
  cases known : (text.dropWhile p).head? with
  | none => rfl
  | some c =>
    rw [known] at stops
    exact stops

theorem ofWord_wording {word : String} (keyword : word ∈ keywords) : (Token.ofWord word).wording = some word := by
  have each : ∀ word ∈ keywords, (Token.ofWord word).wording = some word := by decide
  exact each word keyword

theorem ofWord_written (starts : startsName c = true) (continues : ∀ d ∈ rest, continuesName d = true) :
    (Token.ofWord (String.ofList (c :: rest))).Written (c :: rest) := by
  obtain ⟨word, text⟩ : ∃ word : String, word.toList = c :: rest := ⟨_, String.toList_ofList⟩
  rw [← text, String.ofList_toList]
  by_cases keyword : word ∈ keywords
  · exact .wording (ofWord_wording keyword)
  · rw [Token.ofWord_identifier keyword]
    apply Token.Written.identifier
    simpa [plainName, keyword, text, starts] using continues

theorem ofWord_continues (word : String) : (Token.ofWord word).continues behind = behind.head?.any continuesName := by
  unfold Token.ofWord
  split
  all_goals rfl

theorem word_written (starts : startsName c = true) (known : front c rest = (.token t, taken)) :
    t.Written (c :: rest.take taken) ∧ t.continues (rest.drop taken) = false := by
  obtain ⟨more, behind, rfl, run, inside, ended⟩ := exists_run continuesName rest
  rw [front_word starts, run] at known
  cases known
  rw [List.take_left, List.drop_left, ofWord_continues]
  exact ⟨ofWord_written starts inside, ended⟩

theorem number_written (digit : c.isDigit = true) (known : numberFront c rest = (.token t, taken)) :
    t.Written (c :: rest.take taken) ∧ t.continues (rest.drop taken) = false := by
  obtain ⟨whole, tail, rfl, run, inside, ended⟩ := exists_run Char.isDigit rest
  have numeral : Numeral (c :: whole) := ⟨by simp, by simpa [digit] using inside⟩
  have integer (short : (tail.head?.any (· = '.') && tail.tail.head?.any Char.isDigit) = false)
      (known : numberFront.integerFront (digitsValue (c :: whole) 0) whole.length = (.token t, taken)) :
      t.Written (c :: (whole ++ tail).take taken) ∧ t.continues ((whole ++ tail).drop taken) = false := by
    rw [numberFront.integerFront] at known
    split at known
    · rename_i small
      cases known
      rw [List.take_left, List.drop_left]
      exact ⟨.integer numeral small, by rw [Token.continues_integer, ended, short]; rfl⟩
    · cases known
  rw [numberFront, run, List.drop_left] at known
  split at known
  · rename_i behind
    obtain ⟨fraction, others, rfl, run, inside', ended'⟩ := exists_run Char.isDigit behind
    rw [run] at known
    simp only at known
    split at known
    · rename_i empty
      apply integer _ known
      rw [List.isEmpty_iff.mp empty, List.nil_append, List.tail_cons, ended', Bool.and_false]
    · rename_i more
      cases known
      have digits : Numeral fraction := ⟨by simpa using more, inside'⟩
      have split : (whole ++ '.' :: (fraction ++ others)) = (whole ++ '.' :: fraction) ++ others := by simp
      have length : whole.length + 1 + fraction.length = (whole ++ '.' :: fraction).length := by
        rw [List.length_append, List.length_cons]
        omega
      rw [split, length, List.take_left, List.drop_left]
      have value : digitsValue fraction (digitsValue (c :: whole) 0) = digitsValue (c :: whole ++ fraction) 0 := by
        rw [digitsValue, digitsValue, digitsValue, List.foldl_append]
      rw [value]
      exact ⟨.float numeral digits, ended'⟩
  · rename_i other
    apply integer _ known
    rw [any_of_other other, Bool.false_and]

theorem literal_written (known : stringFront rest = (.token t, taken)) :
    t.Written ('"' :: rest.take taken) ∧ t.continues (rest.drop taken) = false := by
  obtain ⟨marked, behind, rfl, rfl, rfl⟩ := stringFront_token known
  have length : (writtenText marked).length + 1 = (writtenText marked ++ ['"']).length := by simp
  rw [List.append_cons, length, List.take_left, List.drop_left]
  exact ⟨.string, rfl⟩

theorem orEqual_written {shorter longer : Token} (word : String) (short : shorter.wording = some word)
    (long : longer.wording = some (word ++ "="))
    (joins : ∀ behind, shorter.continues behind = behind.head?.any (· = '=')) (closed : ∀ behind, longer.continues behind = false)
    (known : orEqual shorter longer rest = (.token t, taken)) :
    t.Written (word.toList ++ rest.take taken) ∧ t.continues (rest.drop taken) = false := by
  unfold orEqual at known
  split at known
  · cases known
    have text : word.toList ++ ['='] = (word ++ "=").toList := by simp
    refine ⟨?_, closed _⟩
    rw [List.take_succ_cons, List.take_zero, text]
    exact .wording long
  · rename_i other
    cases known
    rw [List.take_zero, List.append_nil, List.drop_zero, joins]
    exact ⟨.wording short, any_of_other other⟩

theorem symbol_written {word : String} (known : t.wording = some word) (same : word.toList = [c])
    (whole : t.continues rest = false) : t.Written (c :: rest.take 0) ∧ t.continues (rest.drop 0) = false := by
  rw [List.take_zero, ← same]
  exact ⟨.wording known, whole⟩

-- What is found as a token is written as one, and nothing behind belongs to it.
theorem front_written (known : front c rest = (.token t, taken)) :
    t.Written (c :: rest.take taken) ∧ t.continues (rest.drop taken) = false := by
  unfold front at known
  split at known
  · cases known
  split at known
  · rename_i starts
    exact word_written starts (by rw [front_word starts]; exact known)
  split at known
  · rename_i digit
    exact number_written digit known
  split at known
  · exact literal_written known
  · split at known
    · cases known
    · rename_i other
      cases known
      exact symbol_written rfl rfl (any_of_other other)
  · exact orEqual_written "=" rfl rfl (fun _ => rfl) (fun _ => rfl) known
  · exact orEqual_written "!" rfl rfl (fun _ => rfl) (fun _ => rfl) known
  · exact orEqual_written "<" rfl rfl (fun _ => rfl) (fun _ => rfl) known
  · exact orEqual_written ">" rfl rfl (fun _ => rfl) (fun _ => rfl) known
  case h_19 => cases known
  all_goals
    cases known
    exact symbol_written rfl rfl rfl

theorem numberFront_solid : numberFront c rest ≠ (.blank, taken) := by
  intro known
  simp only [numberFront, numberFront.integerFront] at known
  split at known
  · split at known
    · split at known <;> cases known
    · cases known
  · split at known <;> cases known

theorem stringFront_solid : stringFront rest ≠ (.blank, taken) := by
  intro known
  simp only [stringFront] at known
  split at known
  · split at known <;> cases known
  · cases known

theorem orEqual_solid {shorter longer : Token} : orEqual shorter longer rest ≠ (.blank, taken) := by
  intro known
  unfold orEqual at known
  split at known <;> cases known

theorem front_skipped (known : front c rest = (.blank, taken)) : Skipped (c :: rest.take taken) (rest.drop taken) := by
  unfold front at known
  split at known
  · rename_i blank
    cases known
    rw [List.take_zero]
    exact .blank blank .nil
  split at known
  · cases known
  split at known
  · exact absurd known numberFront_solid
  split at known
  case h_2 =>
    split at known
    · rename_i text
      obtain ⟨body, tail, rfl, run, inside, ended⟩ := exists_run (· ≠ '\n') text
      have all : ('/' :: (body ++ tail)).takeWhile (· ≠ '\n') = '/' :: body := by
        rw [List.takeWhile_cons_of_pos (by decide), run]
      rw [all] at known
      cases known
      have split : '/' :: (body ++ tail) = ('/' :: body) ++ tail := rfl
      rw [split, List.take_left, List.drop_left, ← List.append_nil body]
      refine .comment (fun present => by simpa using inside _ present) ?_ .nil
      intro d here
      simpa using head_of_any ended d here
    · cases known
  case h_1 => exact absurd known stringFront_solid
  case h_3 | h_4 | h_5 | h_6 => exact absurd known orEqual_solid
  all_goals cases known

theorem word_found {word : String} (text : word.toList = c :: rest) (starts : startsName c = true)
    (continues : ∀ d ∈ rest, continuesName d = true) (ended : behind.head?.any continuesName = false) :
    front c (rest ++ behind) = (.token (.ofWord word), rest.length) := by
  rw [front_word starts, takeWhile_exact continues (head_of_any ended), ← text, String.ofList_toList]

theorem keyword_found {word : String} (keyword : word ∈ keywords) (ended : behind.head?.any continuesName = false) :
    ∃ c more, word.toList = c :: more ∧ front c (more ++ behind) = (.token (.ofWord word), more.length) := by
  have each : ∀ word ∈ keywords, word.toList.head?.any startsName = true ∧ word.toList.tail.all continuesName = true := by
    decide
  obtain ⟨starts, continues⟩ := each word keyword
  rw [List.all_eq_true] at continues
  cases text : word.toList with
  | nil =>
    rw [text] at starts
    cases starts
  | cons c more =>
    rw [text] at starts continues
    exact ⟨c, more, rfl, word_found text starts continues ended⟩

theorem name_found {name : String} (plain : plainName name = true) (ended : behind.head?.any continuesName = false) :
    ∃ c more, name.toList = c :: more ∧ front c (more ++ behind) = (.token (.identifier name), more.length) := by
  obtain ⟨c, more, text, starts, continues⟩ := plainName_parts plain
  have found := word_found text starts continues ended
  rw [Token.ofWord_identifier (plainName_other plain)] at found
  exact ⟨c, more, text, found⟩

theorem integer_found {digits : List Char} (numeral : Numeral digits) (small : digitsValue digits 0 < Nat.pow 2 31)
    (ended : behind.head?.any Char.isDigit = false)
    (short : (behind.head?.any (· = '.') && behind.tail.head?.any Char.isDigit) = false) :
    ∃ c more, digits = c :: more ∧
      front c (more ++ behind) = (.token (.integer (.ofNat (digitsValue digits 0))), more.length) := by
  obtain ⟨c, more, rfl⟩ := List.exists_cons_of_ne_nil numeral.nonempty
  have known := numeral.digits
  rw [List.forall_mem_cons] at known
  have integer : numberFront.integerFront (digitsValue (c :: more) 0) more.length =
      (.token (.integer (.ofNat (digitsValue (c :: more) 0))), more.length) := if_pos small
  refine ⟨c, more, rfl, ?_⟩
  rw [front_number known.1, numberFront, takeWhile_exact known.2 (head_of_any ended), List.drop_left]
  split
  · rename_i others
    have nothing : others.takeWhile Char.isDigit = [] :=
      @takeWhile_exact _ [] _ (by simp) (head_of_any (by simpa using short))
    rw [nothing]
    exact integer
  · exact integer

theorem float_found {whole fraction : List Char} (left : Numeral whole) (right : Numeral fraction)
    (ended : behind.head?.any Char.isDigit = false) : ∃ c more, whole ++ '.' :: fraction = c :: more ∧
      front c (more ++ behind) = (.token (.float (.ofRatio (digitsValue (whole ++ fraction) 0) (Nat.pow 10 fraction.length))),
        more.length) := by
  obtain ⟨c, more, rfl⟩ := List.exists_cons_of_ne_nil left.nonempty
  have known := left.digits
  rw [List.forall_mem_cons] at known
  have point : ∀ d, ('.' :: (fraction ++ behind)).head? = some d → d.isDigit = false := by
    intro d here
    cases here
    rfl
  refine ⟨c, more ++ '.' :: fraction, rfl, ?_⟩
  rw [List.append_assoc, List.cons_append, front_number known.1, numberFront, takeWhile_exact known.2 point, List.drop_left]
  simp only [takeWhile_exact right.digits (head_of_any ended), List.isEmpty_iff, right.nonempty, if_false]
  rw [List.cons_append, ← List.cons_append, digitsValue, digitsValue, digitsValue, List.foldl_append, List.length_append,
    List.length_cons, Nat.add_assoc, Nat.add_comm 1]

theorem literal_found (marked : List (Char × Bool)) (behind : List Char) : ∃ c more, literal marked = c :: more ∧
    front c (more ++ behind) = (.token (.string (String.ofList (marked.map Prod.fst))), more.length) := by
  refine ⟨'"', _, rfl, ?_⟩
  rw [List.append_assoc, List.length_append]
  exact stringFront_written marked behind

theorem slash_found (ended : behind.head? ≠ some '/') : front '/' behind = (.token .slash, 0) := by
  rw [front, if_neg (by decide), if_neg (by decide), if_neg (by decide)]
  rintro rest rfl
  exact ended rfl

-- What is written as a token in front of what does not belong to it is found.
theorem written_found {text : List Char} (written : t.Written text) (whole : t.continues behind = false) :
    ∃ c more, text = c :: more ∧ front c (more ++ behind) = (.token t, more.length) := by
  cases written with
  | identifier plain => exact name_found plain whole
  | integer numeral small =>
    rw [Token.continues_integer, Bool.or_eq_false_iff] at whole
    exact integer_found numeral small whole.1 whole.2
  | float left right => exact float_found left right whole
  | string => exact literal_found _ behind
  | wording known =>
    cases t
    case letWord | varWord | fnWord | trueWord | falseWord | ifWord | elseWord | returnWord =>
      cases known
      exact keyword_found (by decide) whole
    case assign | bang | less | greater =>
      cases known
      exact ⟨_, [], rfl, orEqual_shorter (absent_of_any whole)⟩
    case slash =>
      cases known
      exact ⟨_, [], rfl, slash_found (absent_of_any whole)⟩
    case equal | notEqual | lessEqual | greaterEqual =>
      cases known
      exact ⟨_, ['='], rfl, rfl⟩
    case float | integer | string | identifier => cases known
    all_goals
      cases known
      exact ⟨_, [], rfl, rfl⟩

end Scan
end StackScript
