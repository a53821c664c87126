import StackScript.Proofs.Syntax.Rereading

-- Chains of operators without parentheses, of any length. The tree of a chain says it in order, binds each operator as
-- tightly as it does, and operators of one tightness to the left; a prefix operator stands in front of its operand alone.
namespace StackScript

def tightness : String → Nat
  | "==" | "!=" => 1
  | "<" | "<=" | ">" | ">=" => 2
  | "+" | "-" => 3
  | "*" | "/" => 4
  | _ => 0

namespace Token

def infixes : List Token :=
  [.plus, .minus, .asterisk, .slash, .less, .lessEqual, .greater, .greaterEqual, .equal, .notEqual]

def atomic : Token → Bool
  | identifier _ | integer _ | float _ | string _ | trueWord | falseWord => true
  | _ => false

end Token

-- A name or a literal behind any number of prefix operators.
structure Operand where
  signs : List Token
  atom : Token
  signed : ∀ t ∈ signs, t = .minus ∨ t = .bang
  atomic : atom.atomic = true

def Operand.tokens (o : Operand) : List Token := o.signs ++ [o.atom]

structure Link where
  operator : Token
  operand : Operand
  between : operator ∈ Token.infixes

def linkTokens (links : List Link) : List Token := links.flatMap fun l => l.operator :: l.operand.tokens

def chainTokens (first : Operand) (links : List Link) : List Token := first.tokens ++ linkTokens links

namespace Expr

-- What a tree of operators says, from left to right.
def inOrder : Expr → List Token
  | identifier _ name => [.identifier name]
  | integer _ n => [.integer n]
  | float _ x => [.float x]
  | string _ s => [.string s]
  | boolean _ b => [if b then .trueWord else .falseWord]
  | unary _ operator right => (Token.ahead operator).toList ++ right.inOrder
  | binary _ operator left right => left.inOrder ++ ((Token.between operator).toList ++ right.inOrder)
  | _ => []

def Signed : Expr → Prop
  | identifier .. | integer .. | float .. | string .. | boolean .. => True
  | unary _ operator right => (Token.ahead operator).isSome ∧ right.Signed
  | _ => False

def root? : Expr → Option String
  | binary _ operator _ _ => some operator
  | _ => none

-- On the left of an infix operator stands what binds at least as tightly, on its right what binds more tightly.
def Layered : Expr → Prop
  | binary _ operator left right =>
    (Token.between operator).isSome ∧ left.Layered ∧ right.Layered ∧
      (∀ o ∈ left.root?, tightness operator ≤ tightness o) ∧ ∀ o ∈ right.root?, tightness operator < tightness o
  | e => e.Signed

variable {e : Expr}

theorem Signed.layered (signed : e.Signed) : e.Layered := by
  cases e with
  | binary => exact signed.elim
  | _ => exact signed

theorem Signed.root? (signed : e.Signed) : e.root? = none := by
  cases e with
  | binary => exact signed.elim
  | _ => rfl

theorem inOrder_unplaced (e : Expr) : e.unplaced.inOrder = e.inOrder := by
  match e with
  | identifier .. | integer .. | float .. | string .. | boolean .. | function .. | call .. | array .. | hash .. | index ..
  | conditional _ _ _ none | conditional _ _ _ (some _) => rfl
  | unary _ operator right => exact congrArg ((Token.ahead operator).toList ++ ·) right.inOrder_unplaced
  | binary _ operator left right =>
    rw [unplaced, inOrder, left.inOrder_unplaced, right.inOrder_unplaced]
    rfl

theorem root_unplaced (e : Expr) : e.unplaced.root? = e.root? := by
  cases e with
  | conditional s condition consequence alternative => cases alternative <;> rfl
  | _ => rfl

theorem signed_unplaced (e : Expr) : e.unplaced.Signed ↔ e.Signed := by
  match e with
  | identifier .. | integer .. | float .. | string .. | boolean .. | function .. | call .. | array .. | hash .. | index ..
  | binary .. | conditional _ _ _ none | conditional _ _ _ (some _) => exact Iff.rfl
  | unary _ operator right => exact and_congr_right fun _ => right.signed_unplaced

theorem layered_unplaced (e : Expr) : e.unplaced.Layered ↔ e.Layered := by
  match e with
  | identifier .. | integer .. | float .. | string .. | boolean .. | function .. | call .. | array .. | hash .. | index ..
  | conditional _ _ _ none | conditional _ _ _ (some _) => exact Iff.rfl
  | unary _ operator right => exact and_congr_right fun _ => right.signed_unplaced
  | binary _ operator left right =>
    rw [unplaced, Layered, left.layered_unplaced, right.layered_unplaced, left.root_unplaced, right.root_unplaced]
    rfl

end Expr

theorem Link.spelled (l : Link) : ∃ operator, Token.between operator = some l.operator ∧
    tightness operator = l.operator.precedence := by
  have known := l.between
  simp only [Token.infixes, List.mem_cons, List.not_mem_nil, or_false] at known
  rcases known with h | h | h | h | h | h | h | h | h | h
  all_goals
    refine ⟨l.operator.operator?.getD "", ?_, ?_⟩
    all_goals
      rw [h]
      rfl

namespace Parsing

variable {level : Nat} {left : Expr} {links others : List Link}

theorem operand_read (fuel : Nat) (signs : List Token) (signed : ∀ t ∈ signs, t = .minus ∨ t = .bang) {atom : Token}
    (atomic : atom.atomic = true) {rest : List Token} (stops : Stops unaryPrecedence rest)
    (enough : 2 * (signs.length + 1) ≤ fuel) :
    ∃ e, e.span = .unknown ∧ e.Signed ∧ e.inOrder = signs ++ [atom] ∧
      Leads (operand fuel) (signs ++ atom :: rest) (pure e) rest := by
  induction signs generalizing fuel with
  | nil =>
    obtain ⟨fuel, rfl⟩ : ∃ k, fuel = k + 1 := ⟨fuel - 1, by simp at enough; omega⟩
    cases atom with
    | identifier name => exact ⟨.identifier .unknown name, rfl, trivial, rfl, fun n => ⟨n + 1, rfl⟩⟩
    | integer n => exact ⟨.integer .unknown n, rfl, trivial, rfl, fun n => ⟨n + 1, rfl⟩⟩
    | float x => exact ⟨.float .unknown x, rfl, trivial, rfl, fun n => ⟨n + 1, rfl⟩⟩
    | string s => exact ⟨.string .unknown s, rfl, trivial, rfl, fun n => ⟨n + 1, rfl⟩⟩
    | trueWord => exact ⟨.boolean .unknown true, rfl, trivial, rfl, fun n => ⟨n + 1, rfl⟩⟩
    | falseWord => exact ⟨.boolean .unknown false, rfl, trivial, rfl, fun n => ⟨n + 1, rfl⟩⟩
    | _ => cases atomic
  | cons sign signs ih =>
    rw [List.length_cons] at enough
    obtain ⟨fuel, rfl⟩ : ∃ k, fuel = k + 2 := ⟨fuel - 2, by omega⟩
    obtain ⟨right, nowhere, inner, said, leads⟩ :=
      ih fuel (fun t here => signed t (List.mem_cons_of_mem _ here)) (by omega)
    obtain ⟨operator, known⟩ : ∃ operator, Token.ahead operator = some sign := by
      rcases signed sign List.mem_cons_self with rfl | rfl
      · exact ⟨"-", rfl⟩
      · exact ⟨"!", rfl⟩
    refine ⟨.unary .unknown operator right, rfl, ⟨by rw [known]; rfl, inner⟩, ?_, ?_⟩
    · rw [Expr.inOrder, known, said]
      rfl
    · apply leads_sign known
      apply leads_next leads
      exact leads_extend (by omega) stops

-- What is read of a chain by an expression of some level, which begins with `start` in front of `links`, and the links
-- that are left.
structure Reading (level : Nat) (start : List Token) (links : List Link) (e : Expr) (others : List Link) : Prop where
  nowhere : e.span = .unknown
  layered : e.Layered
  tight : ∀ o ∈ e.root?, level < tightness o
  said : start ++ linkTokens links = e.inOrder ++ linkTokens others
  loose : ∀ l ∈ others.head?, l.operator.precedence ≤ level

theorem stops_of_loose (loose : ∀ l ∈ others.head?, l.operator.precedence ≤ level) : Stops level (linkTokens others) := by
  cases others with
  | nil =>
    intro t here
    cases here
  | cons l rest => exact .of_cons (loose l rfl)

-- How an expression goes on over some links: it takes those that bind more tightly than its level.
def Extended (links : List Link) : Prop := ∀ (fuel level : Nat) {left : Expr}, left.span = .unknown → left.Layered →
  (∀ o ∈ left.root?, level < tightness o) → (∀ l ∈ links.head?, ∀ o ∈ left.root?, l.operator.precedence ≤ tightness o) →
  2 * (linkTokens links).length + 1 ≤ fuel →
  ∃ e others, others.length ≤ links.length ∧ Reading level left.inOrder links e others ∧
    Leads (extend fuel level left) (linkTokens links) (pure e) (linkTokens others)

theorem Extended.chain (extended : Extended links) (fuel level : Nat) (first : Operand)
    (enough : 2 * (chainTokens first links).length + 1 ≤ fuel) :
    ∃ e others, others.length ≤ links.length ∧ Reading level first.tokens links e others ∧
      Leads (expression fuel level) (chainTokens first links) (pure e) (linkTokens others) := by
  simp only [chainTokens, Operand.tokens, List.length_append, List.length_cons, List.length_nil] at enough
  obtain ⟨fuel, rfl⟩ : ∃ k, fuel = k + 1 := ⟨fuel - 1, by omega⟩
  have stops : Stops unaryPrecedence (linkTokens links) := by
    apply stops_of_loose
    intro l _
    obtain ⟨operator, known, -⟩ := l.spelled
    exact Nat.le_of_lt_succ (between_precedence known).2
  obtain ⟨left, nowhere, signed, said, leads⟩ := operand_read fuel first.signs first.signed first.atomic stops (by omega)
  obtain ⟨e, others, fewer, reading, extends'⟩ := extended fuel level nowhere signed.layered
    (by simp [signed.root?]) (by simp [signed.root?]) (by omega)
  rw [said] at reading
  refine ⟨e, others, fewer, reading, ?_⟩
  rw [chainTokens, Operand.tokens, List.append_assoc, List.singleton_append]
  exact leads_next leads extends'

-- By induction on the number of links. The operator of the first one either ends the expression, or takes what binds more
-- tightly on its right, and the expression goes on behind that.
theorem extended (links : List Link) : Extended links := by
  match links with
  | [] =>
    intro fuel level left nowhere layered tight _ enough
    refine ⟨left, [], Nat.le_refl _, ⟨nowhere, layered, tight, rfl, by simp⟩, ?_⟩
    exact leads_extend (by omega) (stops_of_loose (by simp))
  | l :: rest =>
    intro fuel level left nowhere layered tight led enough
    obtain ⟨operator, known, binds⟩ := l.spelled
    by_cases loose : l.operator.precedence ≤ level
    · have loose : ∀ k ∈ (l :: rest).head?, k.operator.precedence ≤ level := by
        rintro _ ⟨⟩
        exact loose
      refine ⟨left, l :: rest, Nat.le_refl _, ⟨nowhere, layered, tight, rfl, loose⟩, ?_⟩
      exact leads_extend (by omega) (stops_of_loose loose)
    · have tokens : linkTokens (l :: rest) = l.operator :: chainTokens l.operand rest := rfl
      rw [tokens, List.length_cons] at enough
      obtain ⟨fuel, rfl⟩ : ∃ k, fuel = k + 1 := ⟨fuel - 1, by omega⟩
      have inner : Extended rest := extended rest
      obtain ⟨right, middle, fewer, second, read⟩ := inner.chain fuel l.operator.precedence l.operand (by omega)
      have layered : (Expr.binary .unknown operator left right).Layered := by
        refine ⟨by rw [known]; rfl, layered, second.layered, ?_, ?_⟩
        · rw [binds]
          exact led l rfl
        · rw [binds]
          exact second.tight
      have outer : Extended middle := extended middle
      obtain ⟨e, others, fewer', third, goes⟩ := outer fuel level rfl layered
        (by rintro _ ⟨⟩; omega)
        (by rintro k here _ ⟨⟩; rw [binds]; exact second.loose k here)
        (by
          have size := congrArg List.length second.said
          simp only [chainTokens, List.length_append] at size enough
          omega)
      refine ⟨e, others, by rw [List.length_cons]; omega, ⟨third.nowhere, third.layered, third.tight, ?_, third.loose⟩, ?_⟩
      · rw [← third.said, Expr.inOrder, known, List.append_assoc, tokens, chainTokens, second.said]
        rfl
      · rw [tokens]
        apply leads_trans _ goes
        exact leads_binary nowhere second.nowhere known (by omega) read
termination_by links.length
decreasing_by
  · simp
  · rw [List.length_cons]
    omega

-- At the lowest level nothing of a chain is left.
theorem chain_read (fuel : Nat) (first : Operand) (links : List Link)
    (enough : 2 * (chainTokens first links).length + 1 ≤ fuel) :
    ∃ e, e.inOrder = chainTokens first links ∧ e.Layered ∧
      Leads (expression fuel 0) (chainTokens first links) (pure e) [] := by
  obtain ⟨e, others, -, reading, leads⟩ := (extended links).chain fuel 0 first enough
  have empty : others = [] := by
    cases others with
    | nil => rfl
    | cons l rest =>
      obtain ⟨operator, known, -⟩ := l.spelled
      have tight := (between_precedence known).1
      have loose := reading.loose l rfl
      omega
  subst empty
  refine ⟨e, ?_, reading.layered, leads⟩
  rw [chainTokens, reading.said]
  exact (List.append_nil _).symm

theorem chain_statement (fuel : Nat) (first : Operand) (links : List Link)
    (enough : 2 * (chainTokens first links).length + 2 ≤ fuel) :
    ∃ e, e.inOrder = chainTokens first links ∧ e.Layered ∧
      Leads (statement fuel) (chainTokens first links) (pure (.expression .unknown e)) [] := by
  obtain ⟨fuel, rfl⟩ : ∃ k, fuel = k + 1 := ⟨fuel - 1, by omega⟩
  obtain ⟨e, said, layered, leads⟩ := chain_read fuel first links (by omega)
  refine ⟨e, said, layered, ?_⟩
  have begun : Leads (statement (fuel + 1)) (chainTokens first links)
      (do
        let value ← expression fuel 0
        let span ← spanFrom .unknown
        let _ ← eat .semicolon
        return .expression span value) (chainTokens first links) := by
    obtain ⟨signs, atom, signed, atomic⟩ := first
    cases signs with
    | nil =>
      apply leads_statement
      · refine ⟨?_, ?_, ?_⟩
        all_goals
          rintro rfl
          cases atomic
      · rintro name -
        cases links with
        | nil => simp [linkTokens]
        | cons l rest =>
          rw [linkTokens, List.flatMap_cons]
          intro same
          have assign : l.operator = .assign := Option.some.inj same
          exact absurd (assign ▸ l.between) (by decide)
    | cons sign signs =>
      rcases signed sign List.mem_cons_self with rfl | rfl
      all_goals exact leads_statement (by decide) (by rintro _ ⟨⟩)
  apply leads_trans begun
  apply leads_next leads
  apply leads_next leads_spanFrom
  apply leads_next (leads_leave (by simp))
  exact leads_refl

end Parsing

namespace Parsed

theorem ofLexemes_single {ts : List Token} {s : Stmt} (nonempty : ts ≠ [])
    (leads : Parsing.Leads (Parsing.statement (depthFor ts.length)) ts (pure s) []) :
    ofLexemes (ts.map Token.lexeme) = ⟨[s], []⟩ := by
  obtain ⟨m, leads⟩ := leads 0
  have begun : Cursor.start (ts.map Token.lexeme) = .bare 0 ts := rfl
  obtain ⟨size, more⟩ := Nat.exists_eq_add_one.mpr (List.length_pos_iff.mpr nonempty)
  rw [ofLexemes, begun, List.length_map, collect, if_neg (by simp [Cursor.bare, maxErrors, nonempty]), leads, more]
  rfl

theorem of_unplaced_single {parsed : Parsed} {e : Expr} (same : parsed.unplaced = ⟨[.expression .unknown e], []⟩) :
    ∃ s value, parsed = ⟨[.expression s value], []⟩ ∧ value.unplaced = e := by
  obtain ⟨statements, errors⟩ := parsed
  simp only [unplaced, bodyUnplaced_eq, mk.injEq, List.map_eq_nil_iff, List.map_eq_singleton_iff] at same
  obtain ⟨⟨statement, rfl, known⟩, rfl⟩ := same
  cases statement with
  | expression s value => exact ⟨s, value, rfl, (Stmt.expression.inj known).2⟩
  | _ => cases known

end Parsed

-- Any chain is read as one expression, whose tree says it in order and is layered by the tightness of its operators.
theorem chain_layered (lexemes : List Lexeme) (first : Operand) (links : List Link)
    (tokens : lexemes.map Lexeme.token = chainTokens first links) :
    ∃ s e, Program.ofLexemes lexemes = .ok ⟨[.expression s e], none⟩ ∧ e.inOrder = chainTokens first links ∧ e.Layered := by
  obtain ⟨bare, said, layered, leads⟩ := Parsing.chain_statement
    (Parsed.depthFor (chainTokens first links).length) first links (by rw [Parsed.depthFor]; omega)
  have single := Parsed.ofLexemes_single (by simp [chainTokens, Operand.tokens]) leads
  rw [← tokens, ← lexemes_unplaced, Parsed.ofLexemes_unplaced] at single
  obtain ⟨s, e, parsed, rfl⟩ := Parsed.of_unplaced_single single
  refine ⟨s, e, ?_, e.inOrder_unplaced.symm.trans said, e.layered_unplaced.mp layered⟩
  rw [Program.ofLexemes, parsed]
  rfl

-- a <= -b + "c" * !!1 - true == x
def Operand.mixed : Operand := ⟨[], .identifier "a", by simp, rfl⟩

def Link.mixed : List Link :=
  [⟨.lessEqual, ⟨[.minus], .identifier "b", by simp, rfl⟩, by decide⟩,
    ⟨.plus, ⟨[], .string "c", by simp, rfl⟩, by decide⟩,
    ⟨.asterisk, ⟨[.bang, .bang], .integer 1, by simp, rfl⟩, by decide⟩,
    ⟨.minus, ⟨[], .trueWord, by simp, rfl⟩, by decide⟩,
    ⟨.equal, ⟨[], .identifier "x", by simp, rfl⟩, by decide⟩]

theorem chain_layered_mixed :
    ((chainTokens .mixed Link.mixed).map Token.lexeme).map Lexeme.token = chainTokens .mixed Link.mixed ∧
    ∃ s e, Program.ofLexemes ((chainTokens .mixed Link.mixed).map Token.lexeme) = .ok ⟨[.expression s e], none⟩ ∧
      e.inOrder = chainTokens .mixed Link.mixed ∧ e.Layered := by
  have tokens : ((chainTokens .mixed Link.mixed).map Token.lexeme).map Lexeme.token = chainTokens .mixed Link.mixed := by
    rw [List.map_map]
    exact List.map_id _
  exact ⟨tokens, chain_layered _ _ _ tokens⟩

end StackScript
