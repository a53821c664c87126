import Mathlib.Data.List.Basic
import StackScript.Token.Scan

-- Scanning a text piece by piece: the tokens of a piece do not depend on what comes before it, and of what comes behind only
-- the next character matters.
namespace StackScript

def keywords : List String := ["let", "var", "fn", "true", "false", "if", "else", "return"]

def plainName (name : String) : Bool :=
  !keywords.contains name && match name.toList with
    | c :: more => Scan.startsName c && more.all Scan.continuesName
    | [] => false

theorem plainName_parts {name : String} (plain : plainName name = true) : ∃ c more, name.toList = c :: more ∧
    Scan.startsName c = true ∧ ∀ d ∈ more, Scan.continuesName d = true := by
  rw [plainName, Bool.and_eq_true] at plain
  cases text : name.toList with
  | nil => simp [text] at plain
  | cons c more =>
    simp only [text, Bool.and_eq_true, List.all_eq_true] at plain
    exact ⟨c, more, rfl, plain.2⟩

theorem plainName_other {name : String} (plain : plainName name = true) : name ∉ keywords := by
  rw [plainName, Bool.and_eq_true] at plain
  simpa using plain.1

theorem Token.ofWord_identifier {name : String} (other : name ∉ keywords) : Token.ofWord name = .identifier name := by
  unfold Token.ofWord
  split
  all_goals first | rfl | exact absurd (by decide) other

namespace Scan

-- Some text gives tokens, and the rest of it is still to be scanned.
inductive Passes : List Char → List Token → List Char → Prop where
  | nil {text : List Char} : Passes text [] text
  | blank {c : Char} {text rest : List Char} {ts : List Token} {taken : Nat} : front c text = (.blank, taken) →
      Passes (text.drop taken) ts rest → Passes (c :: text) ts rest
  | token {c : Char} {text rest : List Char} {t : Token} {ts : List Token} {taken : Nat} : front c text = (.token t, taken) →
      Passes (text.drop taken) ts rest → Passes (c :: text) (t :: ts) rest

theorem Passes.symbol {c : Char} {text rest : List Char} {t : Token} {ts : List Token} (known : front c text = (.token t, 0))
    (behind : Passes text ts rest) : Passes (c :: text) (t :: ts) rest :=
  .token known behind

theorem Passes.space {text rest : List Char} {ts : List Token} (behind : Passes text ts rest) :
    Passes (' ' :: text) ts rest :=
  .blank (show front ' ' text = (.blank, 0) from rfl) behind

theorem Passes.append {text middle rest : List Char} {ts us : List Token} (first : Passes text ts middle)
    (next : Passes middle us rest) : Passes text (ts ++ us) rest := by
  induction first with
  | nil => exact next
  | blank known _ ih => exact .blank known (ih next)
  | token known _ ih => exact .token known (ih next)

theorem Passes.finish {text rest : List Char} {ts : List Token} (passes : Passes text ts rest) (ended : rest = []) :
    ∀ offset read, ∃ found, lexemesFrom offset read text = .ok found ∧
      found.toList.map Lexeme.token = read.toList.map Lexeme.token ++ ts := by
  induction passes with
  | nil =>
    intro offset read
    subst ended
    exact ⟨read, by rw [lexemesFrom], by simp⟩
  | blank known _ ih =>
    intro offset read
    rw [lexemesFrom, known]
    exact ih ended _ read
  | token known _ ih =>
    intro offset read
    rw [lexemesFrom, known]
    obtain ⟨found, scanned, same⟩ := ih ended _ (read.push ⟨_, ⟨offset, _⟩⟩)
    refine ⟨found, scanned, ?_⟩
    rw [same]
    simp

-- What may stand behind a name, a number or an operator without becoming part of it.
def Apart (rest : List Char) : Prop := ∀ c, rest.head? = some c → continuesName c = false ∧ c ≠ '.' ∧ c ≠ '='

theorem Apart.of_cons {c : Char} {rest : List Char} (known : continuesName c = false ∧ c ≠ '.' ∧ c ≠ '=') :
    Apart (c :: rest) := by
  intro d here
  cases here
  exact known

theorem takeWhile_exact {p : Char → Bool} {text rest : List Char} (inside : ∀ c ∈ text, p c = true)
    (behind : ∀ c, rest.head? = some c → p c = false) : (text ++ rest).takeWhile p = text := by
  rw [List.takeWhile_append_of_pos inside]
  cases rest with
  | nil => simp
  | cons c rest => simp [behind c rfl]

theorem continuesName_not_blank {c : Char} (continues : continuesName c = true) : isBlank c = false := by
  by_contra blank
  simp only [isBlank, Bool.not_eq_false, Bool.or_eq_true, decide_eq_true_eq] at blank
  obtain (((rfl | rfl) | rfl) | rfl) | rfl := blank
  all_goals exact absurd continues (by decide)

theorem isDigit_not_startsName {c : Char} (digit : c.isDigit = true) : startsName c = false := by
  have upper : c.isUpper = decide ('A'.val ≤ c.val ∧ c.val ≤ 'Z'.val) := rfl
  have lower : c.isLower = (decide ('a'.val ≤ c.val) && decide (c.val ≤ 'z'.val)) := rfl
  have letter : c.isAlpha = (c.isUpper || c.isLower) := rfl
  simp only [Char.isDigit, Bool.and_eq_true, decide_eq_true_eq, ge_iff_le, UInt32.le_iff_toNat_le] at digit
  change 48 ≤ c.val.toNat ∧ c.val.toNat ≤ 57 at digit
  by_contra starts
  simp only [startsName, letter, upper, lower, Bool.not_eq_false, Bool.or_eq_true, Bool.and_eq_true, decide_eq_true_eq,
    UInt32.le_iff_toNat_le] at starts
  obtain (⟨low, -⟩ | ⟨low, -⟩) | rfl := starts
  · change 65 ≤ c.val.toNat at low
    omega
  · change 97 ≤ c.val.toNat at low
    omega
  · exact absurd digit (by decide)

theorem front_word {c : Char} (starts : startsName c = true) (rest : List Char) : front c rest =
    (.token (.ofWord (String.ofList (c :: rest.takeWhile continuesName))), (rest.takeWhile continuesName).length) := by
  have solid : isBlank c = false := continuesName_not_blank (by rw [continuesName, starts]; rfl)
  unfold front
  rw [if_neg (by simp [solid]), if_pos starts]

theorem front_number {c : Char} (digit : c.isDigit = true) (rest : List Char) : front c rest = numberFront c rest := by
  have solid : isBlank c = false := continuesName_not_blank (by rw [continuesName, digit, Bool.or_true])
  unfold front
  rw [if_neg (by simp [solid]), if_neg (by simp [isDigit_not_startsName digit]), if_pos digit]

theorem orEqual_shorter {shorter longer : Token} {rest : List Char} (other : rest.head? ≠ some '=') :
    orEqual shorter longer rest = (.token shorter, 0) := by
  unfold orEqual
  split
  · exact absurd rfl other
  · rfl

theorem word_passes {c : Char} {more rest : List Char} (starts : startsName c = true)
    (continues : ∀ d ∈ more, continuesName d = true) (apart : Apart rest) :
    Passes (c :: (more ++ rest)) [Token.ofWord (String.ofList (c :: more))] rest := by
  have whole : (more ++ rest).takeWhile continuesName = more := takeWhile_exact continues fun d here => (apart d here).1
  have known := front_word starts (more ++ rest)
  rw [whole] at known
  apply Passes.token known
  rw [List.drop_left]
  exact .nil

theorem digits_pass {n : Nat} {rest : List Char} (small : n < Nat.pow 2 31) (apart : Apart rest) :
    Passes (Nat.toDigits 10 n ++ rest) [.integer (.ofNat n)] rest := by
  have digits (d : Char) (here : d ∈ Nat.toDigits 10 n) : d.isDigit = true :=
    Nat.isDigit_of_mem_toDigits (by decide) (by decide) here
  obtain ⟨c, more, known⟩ := List.exists_cons_of_ne_nil (Nat.toDigits_ne_nil (n := n) (b := 10))
  have value : digitsValue (c :: more) 0 = n := by
    rw [← known]
    exact Nat.ofDigitChars_ten_toDigits
  rw [known] at digits ⊢
  have first := digits c List.mem_cons_self
  have whole : (more ++ rest).takeWhile Char.isDigit = more := by
    apply takeWhile_exact fun d here => digits d (List.mem_cons_of_mem _ here)
    intro d here
    have other := (apart d here).1
    rw [continuesName, Bool.or_eq_false_iff] at other
    exact other.2
  have front := front_number first (more ++ rest)
  rw [numberFront, whole, List.drop_left, value] at front
  have integer : numberFront.integerFront n more.length = (.token (.integer (.ofNat n)), more.length) := if_pos small
  rw [integer] at front
  have passed : Scan.front c (more ++ rest) = (.token (.integer (.ofNat n)), more.length) := by
    rw [front]
    split
    · exact absurd rfl (apart '.' rfl).2.1
    · rfl
  apply Passes.token passed
  rw [List.drop_left]
  exact .nil

end Scan
end StackScript
