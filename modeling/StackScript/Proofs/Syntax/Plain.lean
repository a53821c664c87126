import StackScript.Proofs.Syntax.Spelling
import StackScript.Proofs.Token.Scanning
import StackScript.Syntax.Render

-- Programs that can be read back from their text: names, numbers that need no sign, truth values, operators, calls, arrays,
-- hashes and indexing, in declarations, assignments and returns, with one expression at the end at most. Their text is
-- scanned to tokens that are read off the tree.
namespace StackScript

def Token.ahead : String → Option Token
  | "-" => some .minus
  | "!" => some .bang
  | _ => none

def Token.between : String → Option Token
  | "+" => some .plus
  | "-" => some .minus
  | "*" => some .asterisk
  | "/" => some .slash
  | "<" => some .less
  | "<=" => some .lessEqual
  | ">" => some .greater
  | ">=" => some .greaterEqual
  | "==" => some .equal
  | "!=" => some .notEqual
  | _ => none

mutual

def Expr.plain : Expr → Bool
  | .identifier _ name => plainName name
  | .integer _ n => 0 ≤ n.toInt
  | .boolean .. => true
  | .unary _ operator right => (Token.ahead operator).isSome && right.plain
  | .binary _ operator left right => (Token.between operator).isSome && left.plain && right.plain
  | .call _ callee arguments => callee.plain && listPlain arguments
  | .array _ elements => listPlain elements
  | .hash _ pairs => pairsPlain pairs
  | .index _ target position => target.plain && position.plain
  | .float .. | .string .. | .conditional .. | .function .. => false

def listPlain : List Expr → Bool
  | [] => true
  | e :: rest => e.plain && listPlain rest

def pairsPlain : List (Expr × Expr) → Bool
  | [] => true
  | (key, value) :: rest => key.plain && value.plain && pairsPlain rest

end

def Stmt.plain : Stmt → Bool
  | .declare _ _ name value | .assign _ name value => plainName name && value.plain
  | .returns _ value => value.plain
  | .expression .. => false

def bodyPlain : List Stmt → Bool
  | [] => true
  | [.expression _ value] => value.plain
  | s :: rest => s.plain && bodyPlain rest

def Program.plain (p : Program) : Bool := bodyPlain p.statements

mutual

def Expr.tokens : Expr → List Token
  | .identifier _ name => [.identifier name]
  | .integer _ n => [.integer n]
  | .boolean _ b => [if b then .trueWord else .falseWord]
  | .unary _ operator right => .leftParen :: ((Token.ahead operator).toList ++ (right.tokens ++ [.rightParen]))
  | .binary _ operator left right =>
    .leftParen :: (left.tokens ++ ((Token.between operator).toList ++ (right.tokens ++ [.rightParen])))
  | .call _ callee arguments => callee.tokens ++ .leftParen :: (listTokens arguments ++ [.rightParen])
  | .array _ elements => .leftBracket :: (listTokens elements ++ [.rightBracket])
  | .hash _ pairs => .leftBrace :: (pairTokens pairs ++ [.rightBrace])
  | .index _ target position =>
    .leftParen :: (target.tokens ++ .leftBracket :: (position.tokens ++ [.rightBracket, .rightParen]))
  | .float .. | .string .. | .conditional .. | .function .. => []

def listTokens : List Expr → List Token
  | [] => []
  | [e] => e.tokens
  | e :: next :: rest => e.tokens ++ .comma :: listTokens (next :: rest)

def pairTokens : List (Expr × Expr) → List Token
  | [] => []
  | [(key, value)] => key.tokens ++ .colon :: value.tokens
  | (key, value) :: next :: rest => key.tokens ++ .colon :: (value.tokens ++ .comma :: pairTokens (next :: rest))

end

def Stmt.tokens : Stmt → List Token
  | .declare _ mutability name value => mutability.token :: .identifier name :: .assign :: (value.tokens ++ [.semicolon])
  | .assign _ name value => .identifier name :: .assign :: (value.tokens ++ [.semicolon])
  | .returns _ value => .returnWord :: (value.tokens ++ [.semicolon])
  | .expression _ value => value.tokens

def Program.tokens (p : Program) : List Token := p.statements.flatMap Stmt.tokens

theorem listTexts_eq (made : List String) (es : List Expr) : listTexts made es = (es.map Expr.text).reverse ++ made := by
  induction es generalizing made with
  | nil => rfl
  | cons e rest ih => simp [listTexts, ih]

theorem pairTexts_eq (made : List String) (pairs : List (Expr × Expr)) :
    pairTexts made pairs = (pairs.map fun p => p.1.text ++ ":" ++ p.2.text).reverse ++ made := by
  induction pairs generalizing made with
  | nil => rfl
  | cons p rest ih => simp [pairTexts, ih]

theorem blockText_eq (written : String) (body : List Stmt) :
    blockText written body = written ++ String.join (body.map Stmt.text) := by
  induction body generalizing written with
  | nil => simp [blockText]
  | cons s rest ih => simp [blockText, ih, String.append_assoc]

theorem integer_text {n : Int32} (plain : 0 ≤ n.toInt) : (toString n.toInt).toList = Nat.toDigits 10 n.toInt.toNat := by
  obtain ⟨k, same⟩ := Int.eq_ofNat_of_zero_le plain
  rw [same]
  exact Nat.toList_repr

namespace Scan

variable {rest : List Char}

theorem name_passes {name : String} (plain : plainName name = true) (apart : Apart rest) :
    Passes (name.toList ++ rest) [.identifier name] rest := by
  obtain ⟨c, more, known, starts, continues⟩ := plainName_parts plain
  have passes := word_passes starts continues apart
  rw [← known, String.ofList_toList, Token.ofWord_identifier (plainName_other plain)] at passes
  rw [known]
  exact passes

theorem keyword_passes (word : String) {t : Token} {c : Char} {more : List Char} (known : word.toList = c :: more)
    (starts : startsName c = true) (continues : more.all continuesName = true) (meant : Token.ofWord word = t)
    (apart : Apart rest) : Passes (word.toList ++ rest) [t] rest := by
  have passes := word_passes starts (by simpa using continues) apart
  rw [← known, String.ofList_toList, meant] at passes
  rw [known]
  exact passes

theorem integer_passes {n : Int32} (plain : 0 ≤ n.toInt) (apart : Apart rest) :
    Passes ((toString n.toInt).toList ++ rest) [.integer n] rest := by
  have same : ((n.toInt.toNat : Nat) : Int) = n.toInt := Int.toNat_of_nonneg plain
  have small : n.toInt.toNat < Nat.pow 2 31 := by
    have := n.toInt_lt
    rw [← same] at this
    exact_mod_cast this
  have value : Int32.ofNat n.toInt.toNat = n := by
    rw [← Int32.toInt_inj, Int32.toInt_ofNat_of_lt small, same]
  have passes := digits_pass small apart
  rw [value] at passes
  rw [integer_text plain]
  exact passes

theorem boolean_passes (b : Bool) (apart : Apart rest) :
    Passes ((if b then "true" else "false").toList ++ rest) [if b then .trueWord else .falseWord] rest := by
  cases b with
  | true => exact keyword_passes "true" rfl rfl rfl rfl apart
  | false => exact keyword_passes "false" rfl rfl rfl rfl apart

theorem ahead_passes {operator : String} (known : (Token.ahead operator).isSome = true) (other : rest.head? ≠ some '=') :
    Passes (operator.toList ++ rest) (Token.ahead operator).toList rest := by
  unfold Token.ahead at known ⊢
  split at known
  · exact .symbol rfl .nil
  · exact .symbol (orEqual_shorter other) .nil
  · cases known

theorem between_passes {operator : String} (known : (Token.between operator).isSome = true) :
    Passes (operator.toList ++ ' ' :: rest) (Token.between operator).toList (' ' :: rest) := by
  unfold Token.between at known ⊢
  split at known
  all_goals first
    | exact .symbol rfl .nil
    | exact .token (show _ = (_, 1) from rfl) .nil
    | cases known

theorem mutability_passes (mutability : Mutability) (apart : Apart rest) :
    Passes (mutability.keyword.toList ++ rest) [mutability.token] rest := by
  cases mutability with
  | fixed => exact keyword_passes "let" rfl rfl rfl rfl apart
  | assignable => exact keyword_passes "var" rfl rfl rfl rfl apart

end Scan

open Scan

-- The text of a plain expression begins with some character that is no equals sign, so that it can follow any operator.
theorem Expr.text_begins : ∀ {e : Expr}, e.plain = true → ∃ c more, e.text.toList = c :: more ∧ c ≠ '='
  | .identifier _ name => by
    intro plain
    rw [Expr.plain, plainName, Bool.and_eq_true] at plain
    cases known : name.toList with
    | nil => simp [known] at plain
    | cons c more =>
      refine ⟨c, more, known, ?_⟩
      rintro rfl
      simp [known, Scan.startsName] at plain
  | .integer _ n => by
    intro plain
    rw [Expr.plain, decide_eq_true_eq] at plain
    rw [Expr.text, integer_text plain]
    obtain ⟨c, more, known⟩ := List.exists_cons_of_ne_nil (Nat.toDigits_ne_nil (n := n.toInt.toNat) (b := 10))
    have digit : c.isDigit = true := by
      apply Nat.isDigit_of_mem_toDigits (b := 10) (n := n.toInt.toNat) (by decide) (by decide)
      rw [known]
      exact List.mem_cons_self
    refine ⟨c, more, known, ?_⟩
    rintro rfl
    exact absurd digit (by decide)
  | .boolean _ b => by cases b <;> simp [Expr.text]
  | .call s callee arguments => by
    intro plain
    rw [Expr.plain, Bool.and_eq_true] at plain
    obtain ⟨c, more, known, other⟩ := text_begins plain.1
    refine ⟨c, more ++ ('(' :: (", ".intercalate (arguments.map Expr.text)).toList ++ [')']), ?_, other⟩
    simp [Expr.text, known, listTexts_eq]
  | .unary .. | .binary .. | .array .. | .hash .. | .index .. => by
    intro _
    simp [Expr.text]
  | .float .. | .string .. | .conditional .. | .function .. => by
    intro plain
    simp [Expr.plain] at plain

mutual

theorem Expr.text_passes : ∀ {e : Expr} {rest : List Char}, e.plain = true → Apart rest →
    Passes (e.text.toList ++ rest) e.tokens rest
  | .identifier _ name, rest => name_passes
  | .integer _ n, rest => by
    intro plain apart
    exact integer_passes (by simpa [Expr.plain] using plain) apart
  | .boolean _ b, rest => fun _ => boolean_passes b
  | .unary s operator right, rest => by
    intro plain apart
    rw [Expr.plain, Bool.and_eq_true] at plain
    have text : (Expr.unary s operator right).text.toList ++ rest =
        '(' :: (operator.toList ++ (right.text.toList ++ ')' :: rest)) := by simp [Expr.text]
    obtain ⟨c, more, known, other⟩ := Expr.text_begins plain.2
    rw [text, Expr.tokens]
    apply Passes.symbol rfl
    apply Passes.append
    · exact ahead_passes plain.1 (by simp [known, other])
    apply Passes.append
    · exact Expr.text_passes plain.2 (.of_cons (by decide))
    · exact .symbol rfl .nil
  | .binary s operator left right, rest => by
    intro plain apart
    rw [Expr.plain, Bool.and_eq_true, Bool.and_eq_true] at plain
    have text : (Expr.binary s operator left right).text.toList ++ rest =
        '(' :: (left.text.toList ++ ' ' :: (operator.toList ++ ' ' :: (right.text.toList ++ ')' :: rest))) := by
      simp [Expr.text]
    rw [text, Expr.tokens]
    apply Passes.symbol rfl
    apply Passes.append
    · exact Expr.text_passes plain.1.2 (.of_cons (by decide))
    apply Passes.space
    apply Passes.append
    · exact between_passes plain.1.1
    apply Passes.space
    apply Passes.append
    · exact Expr.text_passes plain.2 (.of_cons (by decide))
    · exact .symbol rfl .nil
  | .call s callee arguments, rest => by
    intro plain apart
    rw [Expr.plain, Bool.and_eq_true] at plain
    have text : (Expr.call s callee arguments).text.toList ++ rest =
        callee.text.toList ++ '(' :: ((", ".intercalate (arguments.map Expr.text)).toList ++ ')' :: rest) := by
      simp [Expr.text, listTexts_eq]
    rw [text, Expr.tokens]
    apply Passes.append
    · exact Expr.text_passes plain.1 (.of_cons (by decide))
    apply Passes.symbol rfl
    apply Passes.append
    · exact listTexts_passes plain.2 (.of_cons (by decide))
    · exact .symbol rfl .nil
  | .array s elements, rest => by
    intro plain apart
    have text : (Expr.array s elements).text.toList ++ rest =
        '[' :: ((", ".intercalate (elements.map Expr.text)).toList ++ ']' :: rest) := by simp [Expr.text, listTexts_eq]
    rw [text, Expr.tokens]
    apply Passes.symbol rfl
    apply Passes.append
    · exact listTexts_passes plain (.of_cons (by decide))
    · exact .symbol rfl .nil
  | .hash s pairs, rest => by
    intro plain apart
    have text : (Expr.hash s pairs).text.toList ++ rest =
        '\x7b' :: ((", ".intercalate (pairs.map fun p => p.1.text ++ ":" ++ p.2.text)).toList ++ '\x7d' :: rest) := by
      simp [Expr.text, pairTexts_eq]
    rw [text, Expr.tokens]
    apply Passes.symbol rfl
    apply Passes.append
    · exact pairTexts_passes plain (.of_cons (by decide))
    · exact .symbol rfl .nil
  | .index s target position, rest => by
    intro plain apart
    rw [Expr.plain, Bool.and_eq_true] at plain
    have text : (Expr.index s target position).text.toList ++ rest =
        '(' :: (target.text.toList ++ '[' :: (position.text.toList ++ ']' :: ')' :: rest)) := by simp [Expr.text]
    rw [text, Expr.tokens]
    apply Passes.symbol rfl
    apply Passes.append
    · exact Expr.text_passes plain.1 (.of_cons (by decide))
    apply Passes.symbol rfl
    apply Passes.append
    · exact Expr.text_passes plain.2 (.of_cons (by decide))
    · exact .symbol rfl (.symbol rfl .nil)
  | .float .., _ | .string .., _ | .conditional .., _ | .function .., _ => by
    intro plain
    simp [Expr.plain] at plain

theorem listTexts_passes : ∀ {es : List Expr} {rest : List Char}, listPlain es = true → Apart rest →
    Passes ((", ".intercalate (es.map Expr.text)).toList ++ rest) (listTokens es) rest
  | [], rest => fun _ _ => .nil
  | [e], rest => by
    intro plain apart
    rw [listPlain, Bool.and_eq_true] at plain
    rw [List.map_singleton, String.intercalate_singleton]
    exact Expr.text_passes plain.1 apart
  | e :: next :: others, rest => by
    intro plain apart
    rw [listPlain, Bool.and_eq_true] at plain
    have text : (", ".intercalate ((e :: next :: others).map Expr.text)).toList ++ rest =
        e.text.toList ++ ',' :: ' ' :: ((", ".intercalate ((next :: others).map Expr.text)).toList ++ rest) := by simp
    rw [text, listTokens]
    apply Passes.append
    · exact Expr.text_passes plain.1 (.of_cons (by decide))
    apply Passes.symbol rfl
    apply Passes.space
    exact listTexts_passes plain.2 apart

theorem pairTexts_passes : ∀ {pairs : List (Expr × Expr)} {rest : List Char}, pairsPlain pairs = true → Apart rest →
    Passes ((", ".intercalate (pairs.map fun p => p.1.text ++ ":" ++ p.2.text)).toList ++ rest) (pairTokens pairs) rest
  | [], rest => fun _ _ => .nil
  | [(key, value)], rest => by
    intro plain apart
    rw [pairsPlain, Bool.and_eq_true, Bool.and_eq_true] at plain
    have text : (", ".intercalate ([(key, value)].map fun p => p.1.text ++ ":" ++ p.2.text)).toList ++ rest =
        key.text.toList ++ ':' :: (value.text.toList ++ rest) := by simp
    rw [text, pairTokens]
    apply Passes.append
    · exact Expr.text_passes plain.1.1 (.of_cons (by decide))
    apply Passes.symbol rfl
    exact Expr.text_passes plain.1.2 apart
  | (key, value) :: next :: others, rest => by
    intro plain apart
    rw [pairsPlain, Bool.and_eq_true, Bool.and_eq_true] at plain
    have text :
        (", ".intercalate (((key, value) :: next :: others).map fun p => p.1.text ++ ":" ++ p.2.text)).toList ++ rest =
        key.text.toList ++ ':' :: (value.text.toList ++ ',' :: ' ' ::
          ((", ".intercalate ((next :: others).map fun p => p.1.text ++ ":" ++ p.2.text)).toList ++ rest)) := by simp
    rw [text, pairTokens]
    apply Passes.append
    · exact Expr.text_passes plain.1.1 (.of_cons (by decide))
    apply Passes.symbol rfl
    apply Passes.append
    · exact Expr.text_passes plain.1.2 (.of_cons (by decide))
    apply Passes.symbol rfl
    apply Passes.space
    exact pairTexts_passes plain.2 apart

end

-- A plain statement ends with a semicolon, so that anything may follow.
theorem Stmt.text_passes {s : Stmt} {rest : List Char} (plain : s.plain = true) :
    Passes (s.text.toList ++ rest) s.tokens rest := by
  have assigned {name : String} {value : Expr} (named : plainName name = true) (plain : value.plain = true) :
      Passes (name.toList ++ ' ' :: '=' :: ' ' :: (value.text.toList ++ ';' :: rest))
        (.identifier name :: .assign :: (value.tokens ++ [.semicolon])) rest := by
    apply Passes.append (name_passes named (.of_cons (by decide)))
    apply Passes.space
    apply Passes.symbol rfl
    apply Passes.space
    apply Passes.append
    · exact Expr.text_passes plain (.of_cons (by decide))
    · exact .symbol rfl .nil
  cases s with
  | declare s mutability name value =>
    rw [Stmt.plain, Bool.and_eq_true] at plain
    have text : (Stmt.declare s mutability name value).text.toList ++ rest =
        mutability.keyword.toList ++ ' ' :: (name.toList ++ ' ' :: '=' :: ' ' :: (value.text.toList ++ ';' :: rest)) := by
      simp [Stmt.text]
    rw [text]
    apply Passes.append (mutability_passes mutability (.of_cons (by decide)))
    apply Passes.space
    exact assigned plain.1 plain.2
  | assign s name value =>
    rw [Stmt.plain, Bool.and_eq_true] at plain
    have text : (Stmt.assign s name value).text.toList ++ rest =
        name.toList ++ ' ' :: '=' :: ' ' :: (value.text.toList ++ ';' :: rest) := by simp [Stmt.text]
    rw [text]
    exact assigned plain.1 plain.2
  | returns s value =>
    have text : (Stmt.returns s value).text.toList ++ rest =
        "return".toList ++ ' ' :: (value.text.toList ++ ';' :: rest) := by simp [Stmt.text]
    rw [text]
    apply Passes.append (keyword_passes "return" rfl rfl rfl rfl (.of_cons (by decide)))
    apply Passes.space
    apply Passes.append
    · exact Expr.text_passes plain (.of_cons (by decide))
    · exact .symbol rfl .nil
  | expression => cases plain

theorem bodyPlain_cons {s : Stmt} {rest : List Stmt} (plain : bodyPlain (s :: rest) = true) :
    (∃ span value, s = .expression span value ∧ value.plain = true ∧ rest = []) ∨
      s.plain = true ∧ bodyPlain rest = true := by
  rw [bodyPlain.eq_def] at plain
  split at plain
  · contradiction
  · rename_i span value same
    cases same
    exact .inl ⟨span, value, rfl, plain, rfl⟩
  · rename_i t others _ same
    cases same
    exact .inr (Bool.and_eq_true .. ▸ plain)

theorem bodyTexts_pass {body : List Stmt} (plain : bodyPlain body = true) :
    Passes (String.join (body.map Stmt.text)).toList (body.flatMap Stmt.tokens) [] := by
  induction body with
  | nil => exact .nil
  | cons s rest ih =>
    rw [List.map_cons, String.join_cons, String.toList_append, List.flatMap_cons]
    rcases bodyPlain_cons plain with ⟨span, value, rfl, last, rfl⟩ | ⟨first, others⟩
    · apply Passes.append
      · exact Expr.text_passes last fun c here => by cases here
      · exact .nil
    · exact (Stmt.text_passes first).append (ih others)

theorem Program.text_passes {p : Program} (plain : p.plain = true) : Passes p.text.toList p.tokens [] := by
  rw [text, blockText_eq, String.empty_append]
  exact bodyTexts_pass plain

end StackScript
