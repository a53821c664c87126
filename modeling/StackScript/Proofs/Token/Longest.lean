import StackScript.Proofs.Token.Written

-- What is read as a token is the longest text at its place that any pattern matches.
namespace StackScript

-- A text that one of the patterns of tokens, or of what is skipped between them, matches.
inductive Matched : List Char → Prop where
  | wording {t : Token} {word : String} : t.wording = some word → Matched word.toList
  | name {c : Char} {more : List Char} : Scan.startsName c = true → (∀ d ∈ more, Scan.continuesName d = true) →
      Matched (c :: more)
  | integer {digits : List Char} : Numeral digits → Matched digits
  | float {whole fraction : List Char} : Numeral whole → Numeral fraction → Matched (whole ++ '.' :: fraction)
  | string {inner : List Char} : Quotable inner → Matched ('"' :: (inner ++ ['"']))
  | blanks {c : Char} {more : List Char} : Scan.isBlank c = true → (∀ d ∈ more, Scan.isBlank d = true) → Matched (c :: more)
  | comment {body : List Char} : '\n' ∉ body → Matched ('/' :: '/' :: body)

-- No pattern matches more of what stands at the place of a text.
def Longest (text behind : List Char) : Prop := ∀ more rest, behind = more ++ rest → Matched (text ++ more) → more = []

namespace Matched

variable {c : Char} {rest text : List Char}

theorem numeral_cons {digits : List Char} (numeral : Numeral digits) : ∃ c more, digits = c :: more ∧ c.isDigit = true := by
  obtain ⟨c, more, rfl⟩ := List.exists_cons_of_ne_nil numeral.nonempty
  exact ⟨c, more, rfl, numeral.digits c List.mem_cons_self⟩

-- What a match holds behind its first character, by the classes of characters that begin the patterns.
def Shape (c : Char) (rest : List Char) : Prop :=
  if Scan.isBlank c then ∀ d ∈ rest, Scan.isBlank d = true
  else if Scan.startsName c then ∀ d ∈ rest, Scan.continuesName d = true
  else if c.isDigit then
    Numeral (c :: rest) ∨ ∃ whole fraction, c :: rest = whole ++ '.' :: fraction ∧ Numeral whole ∧ Numeral fraction
  else if c = '"' then ∃ inner, Quotable inner ∧ rest = inner ++ ['"']
  else rest = [] ∨ (c ∈ ['=', '!', '<', '>'] ∧ rest = ['=']) ∨ (c = '/' ∧ ∃ body, rest = '/' :: body)

theorem shape_name (starts : Scan.startsName c = true) : Shape c rest = ∀ d ∈ rest, Scan.continuesName d = true := by
  have solid := Scan.continuesName_not_blank (c := c) (by rw [Scan.continuesName, starts, Bool.true_or])
  rw [Shape, if_neg (by rw [solid]; decide), if_pos starts]

theorem shape_digit (digit : c.isDigit = true) : Shape c rest = (Numeral (c :: rest) ∨
    ∃ whole fraction, c :: rest = whole ++ '.' :: fraction ∧ Numeral whole ∧ Numeral fraction) := by
  have solid := Scan.continuesName_not_blank (c := c) (by rw [Scan.continuesName, digit, Bool.or_true])
  rw [Shape, if_neg (by rw [solid]; decide), if_neg (by rw [Scan.isDigit_not_startsName digit]; decide), if_pos digit]

theorem wording_shape {t : Token} {word : String} (known : t.wording = some word) (text : word.toList = c :: rest) :
    Shape c rest := by
  cases t
  case float | integer | string | identifier => cases known
  case letWord | varWord | fnWord | trueWord | falseWord | ifWord | elseWord | returnWord =>
    cases known
    cases text
    exact List.all_eq_true.mp rfl
  case equal | notEqual | lessEqual | greaterEqual =>
    cases known
    cases text
    exact Or.inr (Or.inl ⟨by decide, rfl⟩)
  all_goals
    cases known
    cases text
    exact Or.inl rfl

theorem shape (matched : Matched (c :: rest)) : Shape c rest := by
  generalize same : c :: rest = text at matched
  cases matched with
  | wording known => exact wording_shape known same.symm
  | name starts continues =>
    cases same
    rw [shape_name starts]
    exact continues
  | integer numeral =>
    rw [shape_digit (numeral.digits c (same ▸ List.mem_cons_self)), same]
    exact .inl numeral
  | float left right =>
    obtain ⟨d, more, rfl, digit⟩ := numeral_cons left
    cases same
    rw [shape_digit digit]
    exact .inr ⟨_, _, rfl, left, right⟩
  | string quotable =>
    cases same
    exact ⟨_, quotable, rfl⟩
  | blanks blank more =>
    cases same
    rw [Shape, if_pos blank]
    exact more
  | comment =>
    cases same
    exact Or.inr (Or.inr ⟨rfl, _, rfl⟩)

theorem word (matched : Matched (c :: rest)) (starts : Scan.startsName c = true) :
    ∀ d ∈ rest, Scan.continuesName d = true := by
  have shape := matched.shape
  rwa [shape_name starts] at shape

theorem number (matched : Matched (c :: rest)) (digit : c.isDigit = true) : Numeral (c :: rest) ∨
    ∃ whole fraction, c :: rest = whole ++ '.' :: fraction ∧ Numeral whole ∧ Numeral fraction := by
  have shape := matched.shape
  rwa [shape_digit digit] at shape

theorem quoted (matched : Matched ('"' :: rest)) : ∃ inner, Quotable inner ∧ rest = inner ++ ['"'] := matched.shape

theorem symbol {d : Char} (matched : Matched (c :: d :: rest)) (name : Scan.startsName c = false) (digit : c.isDigit = false)
    (quote : c ≠ '"') (blank : Scan.isBlank c = false) :
    (c ∈ ['=', '!', '<', '>'] ∧ d = '=' ∧ rest = []) ∨ (c = '/' ∧ d = '/') := by
  have shape := matched.shape
  rw [Shape, if_neg (by rw [blank]; decide), if_neg (by rw [name]; decide), if_neg (by rw [digit]; decide), if_neg quote] at shape
  rcases shape with nothing | ⟨joins, equals⟩ | ⟨slash, body, comment⟩
  · cases nothing
  · cases equals
    exact .inl ⟨joins, rfl, rfl⟩
  · cases comment
    exact .inr ⟨slash, rfl⟩

end Matched

theorem Token.wording_longest {t : Token} {word : String} {d : Char} {more tail : List Char} (known : t.wording = some word)
    (matched : Matched (word.toList ++ d :: more)) : t.continues (d :: tail) = true := by
  cases t
  case float | integer | string | identifier => cases known
  case letWord | varWord | fnWord | trueWord | falseWord | ifWord | elseWord | returnWord =>
    cases known
    exact matched.word rfl d (by simp)
  case assign | bang | less | greater =>
    cases known
    rcases matched.symbol rfl rfl (by decide) rfl with ⟨-, rfl, -⟩ | ⟨other, -⟩
    · rfl
    · cases other
  case slash =>
    cases known
    rcases matched.symbol rfl rfl (by decide) rfl with ⟨other, -⟩ | ⟨-, rfl⟩
    · exact absurd other (by decide)
    · rfl
  case equal | notEqual | lessEqual | greaterEqual =>
    cases known
    rcases matched.symbol rfl rfl (by decide) rfl with ⟨-, -, other⟩ | ⟨other, -⟩
    · cases other
    · cases other
  all_goals
    cases known
    rcases matched.symbol rfl rfl (by decide) rfl with ⟨other, -⟩ | ⟨other, -⟩
    · exact absurd other (by decide)
    · cases other

namespace Scan

theorem run_unique {p : Char → Bool} {run tail other rest : List Char} (same : run ++ tail = other ++ rest)
    (inside : ∀ c ∈ run, p c = true) (ended : tail.head?.any p = false) (inside' : ∀ c ∈ other, p c = true)
    (ended' : rest.head?.any p = false) : run = other ∧ tail = rest := by
  have one := takeWhile_exact inside (head_of_any ended)
  have two := takeWhile_exact inside' (head_of_any ended')
  rw [same, two] at one
  subst one
  exact ⟨rfl, List.append_cancel_left same⟩

variable {d : Char} {more behind : List Char}

theorem integer_longest {digits : List Char} (numeral : Numeral digits) (matched : Matched (digits ++ d :: more)) :
    d.isDigit = true ∨ d = '.' ∧ more.head?.any Char.isDigit = true := by
  obtain ⟨c, run, rfl, digit⟩ := Matched.numeral_cons numeral
  cases last : d.isDigit with
  | true => exact .inl rfl
  | false =>
    right
    have ended : (d :: more).head?.any Char.isDigit = false := last
    rcases matched.number digit with longer | ⟨whole, fraction, same, left, right⟩
    · rw [longer.digits d (by simp)] at last
      cases last
    · obtain ⟨-, rest⟩ := run_unique (p := Char.isDigit) same numeral.digits ended left.digits rfl
      cases rest
      obtain ⟨e, others, rfl, first⟩ := Matched.numeral_cons right
      exact ⟨rfl, first⟩

theorem float_longest {whole fraction : List Char} (left : Numeral whole)
    (matched : Matched (whole ++ '.' :: fraction ++ d :: more)) : d.isDigit = true := by
  obtain ⟨c, run, rfl, digit⟩ := Matched.numeral_cons left
  rcases matched.number digit with longer | ⟨whole, digits, same, before, behind⟩
  · have point := longer.digits '.' (by simp)
    cases point
  · have same : c :: run ++ '.' :: (fraction ++ d :: more) = whole ++ '.' :: digits := by simpa using same
    obtain ⟨-, rest⟩ := run_unique (p := Char.isDigit) same left.digits rfl before.digits rfl
    exact behind.digits d (by rw [← (List.cons.inj rest).2]; simp)

theorem literal_longest {marked : List (Char × Bool)} (matched : Matched (literal marked ++ d :: more)) : False := by
  obtain ⟨inner, quotable, same⟩ := matched.quoted
  have one := literalEnd_quotable (writtenText_quotable marked) (d :: more) 0
  have two := literalEnd_quotable quotable [] 0
  have same : writtenText marked ++ '"' :: d :: more = inner ++ ['"'] := by simpa using same
  rw [same, two] at one
  have length := congrArg List.length same
  simp only [Prod.mk.injEq, and_true, List.length_append, List.length_cons, List.length_nil] at one length
  omega

end Scan

-- What is written as a token, with nothing behind that belongs to it, is the longest match.
theorem Token.Written.longest {t : Token} {text behind : List Char} (written : t.Written text)
    (alone : t.continues behind = false) : Longest text behind := by
  intro more rest split matched
  subst split
  cases more with
  | nil => rfl
  | cons d more =>
    have extended : t.continues (d :: (more ++ rest)) = true := by
      cases written with
      | wording known => exact wording_longest known matched
      | identifier plain =>
        obtain ⟨c, others, text, starts, -⟩ := plainName_parts plain
        rw [text] at matched
        exact matched.word starts d (by simp)
      | integer numeral _ =>
        rw [continues_integer, Bool.or_eq_true, Bool.and_eq_true]
        rcases Scan.integer_longest numeral matched with digit | ⟨rfl, digit⟩
        · exact .inl digit
        · refine .inr ⟨rfl, ?_⟩
          cases more with
          | nil => cases digit
          | cons e more => exact digit
      | float left _ => exact Scan.float_longest left matched
      | string => exact (Scan.literal_longest matched).elim
    rw [List.cons_append, extended] at alone
    cases alone

end StackScript
