import StackScript.Proofs.Syntax.Pieces
import StackScript.Proofs.Syntax.Spelling

-- Reading a program passes over exactly the tokens that spell it, and its fuel is enough for all of them.
namespace StackScript

def Cursor.tokens (c : Cursor) : List Token := c.rest.map Lexeme.token

theorem Cursor.peek_tokens (c : Cursor) : c.peek? = c.tokens.head? := by
  obtain ⟨rest, position, previous⟩ := c
  cases rest with
  | nil => rfl
  | cons l rest => rfl

namespace Parsing

variable {α β : Type} {x : Parsing α} {c : Cursor}

-- What is read from `c` is related to the tokens that it is read from. Reading may fail there, but not for want of fuel.
def Reads (c : Cursor) (x : Parsing α) (spelled : α → List Token → Prop) : Prop :=
  match x c with
  | .ok a d => ∃ ts, c.tokens = ts ++ d.tokens ∧ spelled a ts
  | .error (.error _) _ => True
  | .error .exhausted _ => False

theorem reads_mono {P Q : α → List Token → Prop} (reads : Reads c x P) (weaker : ∀ a ts, P a ts → Q a ts) : Reads c x Q := by
  unfold Reads at reads ⊢
  split at reads
  · obtain ⟨ts, passed, spelled⟩ := reads
    exact ⟨ts, passed, weaker _ ts spelled⟩
  · trivial
  · exact reads

theorem reads_bind {y : Parsing β} {f : β → Parsing α} {P : β → List Token → Prop} {Q : α → List Token → Prop}
    (first : Reads c y P)
    (next : ∀ b ts d, c.tokens = ts ++ d.tokens → P b ts → Reads d (f b) fun a us => Q a (ts ++ us)) :
    Reads c (y >>= f) Q := by
  unfold Reads at first ⊢
  simp only [bind, EStateM.bind]
  cases run : y c with
  | error h d =>
    rw [run] at first
    cases h with
    | error e => trivial
    | exhausted => exact first.elim
  | ok b d =>
    rw [run] at first
    obtain ⟨ts, passed, spelled⟩ := first
    have rest := next b ts d passed spelled
    unfold Reads at rest
    simp only
    split at rest
    · obtain ⟨us, further, whole⟩ := rest
      refine ⟨ts ++ us, ?_, whole⟩
      rw [passed, further, List.append_assoc]
    · trivial
    · exact rest

theorem reads_pure {P : α → List Token → Prop} {a : α} (spelled : P a []) : Reads c (pure a) P := ⟨[], rfl, spelled⟩

theorem reads_get {P : α → List Token → Prop} {f : Cursor → Parsing α} (next : Reads c (f c) P) :
    Reads c (get >>= f) P :=
  next

theorem reads_refuse {P : α → List Token → Prop} (problem : Misread) : Reads c (refuse problem) P := trivial

theorem reads_ite {P : α → List Token → Prop} {p : Prop} [Decidable p] {y : Parsing α} (yes : p → Reads c x P)
    (no : ¬ p → Reads c y P) : Reads c (if p then x else y) P := by
  split
  · exact yes ‹_›
  · exact no ‹_›

theorem reads_advance {t : Token} {rest : List Token} (next : c.tokens = t :: rest) :
    Reads c advance fun _ ts => ts = [t] := by
  obtain ⟨lexemes, position, previous⟩ := c
  cases lexemes with
  | nil => cases next
  | cons l lexemes =>
    obtain ⟨here, -⟩ := List.cons.inj next
    exact ⟨[l.token], rfl, by rw [here]⟩

theorem reads_eat (t : Token) : Reads c (eat t) fun found ts => ts = if found then [t] else [] := by
  apply reads_get
  rw [c.peek_tokens]
  apply reads_ite
  · intro here
    obtain ⟨rest, next⟩ := List.head?_eq_some_iff.mp here
    apply reads_bind (reads_advance next)
    rintro _ ts d - rfl
    exact reads_pure rfl
  · intro _
    exact reads_pure rfl

theorem reads_expect (t : Token) : Reads c (expect t) fun _ ts => ts = [t] := by
  apply reads_get
  rw [c.peek_tokens]
  apply reads_ite
  · intro here
    obtain ⟨rest, next⟩ := List.head?_eq_some_iff.mp here
    exact reads_advance next
  · intro _
    exact reads_refuse _

theorem reads_expectIdentifier : Reads c expectIdentifier fun name ts => ts = [.identifier name] := by
  apply reads_get
  rw [c.peek_tokens]
  cases next : c.tokens with
  | nil => exact reads_refuse _
  | cons t rest =>
    cases t with
    | identifier name =>
      apply reads_bind (reads_advance next)
      rintro _ ts d - rfl
      exact reads_pure rfl
    | _ => exact reads_refuse _

theorem reads_spanFrom (start : Span) : Reads c (spanFrom start) fun _ ts => ts = [] := ⟨[], rfl, rfl⟩

theorem reads_pass {t : Token} {rest : List Token} {y : Parsing α} {P : α → List Token → Prop} (next : c.tokens = t :: rest)
    (others : ∀ d, d.tokens = rest → Reads d y fun a ts => P a (t :: ts)) : Reads c (do advance; y) P := by
  apply reads_bind (reads_advance next)
  rintro _ ts d passed rfl
  rw [next] at passed
  exact others d (List.cons.inj passed).2.symm

theorem left_length {ts : List Token} {d : Cursor} (passed : c.tokens = ts ++ d.tokens) :
    c.tokens.length = ts.length + d.tokens.length := by
  rw [passed, List.length_append]

-- Of what is read first often only the length matters for what is read next.
theorem reads_then {y : Parsing β} {f : β → Parsing α} {P : β → List Token → Prop} {Q : α → List Token → Prop}
    (first : Reads c y P)
    (next : ∀ b ts d, c.tokens.length = ts.length + d.tokens.length → P b ts → Reads d (f b) fun a us => Q a (ts ++ us)) :
    Reads c (y >>= f) Q :=
  reads_bind first fun b ts d passed => next b ts d (left_length passed)

theorem reads_after {t : Token} {y : Parsing α} {P : α → List Token → Prop}
    (others : ∀ d, c.tokens.length = d.tokens.length + 1 → Reads d y fun a ts => P a (t :: ts)) :
    Reads c (do expect t; y) P := by
  apply reads_then (reads_expect t)
  rintro _ ts d shorter rfl
  exact others d (shorter.trans (Nat.add_comm _ _))

theorem reads_node {start : Span} {made : Span → α} {P : α → List Token → Prop} (spelled : ∀ span, P (made span) []) :
    Reads c (do return made (← spanFrom start)) P := by
  apply reads_bind (reads_spanFrom start)
  rintro span ts d - rfl
  exact reads_pure (spelled span)

theorem reads_parameters (fuel : Nat) (read : List String) (enough : c.tokens.length < fuel) :
    Reads c (parameters fuel read) fun names ts => ∃ new, new ≠ [] ∧ names = read.reverse ++ new ∧
      ts = parameterTokens new ++ [.rightParen] := by
  induction fuel generalizing c read with
  | zero => exact absurd enough (Nat.not_lt_zero _)
  | succ fuel ih =>
    apply reads_then reads_expectIdentifier
    rintro name ts d left rfl
    apply reads_then (reads_eat .comma)
    rintro more us e later rfl
    simp only [List.length_singleton] at left
    apply reads_ite
    · rintro rfl
      refine reads_mono (ih (name :: read) (by omega)) ?_
      rintro names vs ⟨new, nonempty, rfl, rfl⟩
      refine ⟨name :: new, List.cons_ne_nil _ _, by simp, ?_⟩
      rw [parameterTokens_cons nonempty]
      rfl
    · intro empty
      apply reads_bind (reads_expect .rightParen)
      rintro _ vs f - rfl
      refine reads_pure ⟨[name], List.cons_ne_nil _ _, by simp, ?_⟩
      simp [empty, parameterTokens]

-- A statement and the semicolon behind it, if there is one.
def Ended (s : Stmt) (ts : List Token) : Prop := s.Spelled ts ∨ ∃ us, s.Spelled us ∧ ts = us ++ [.semicolon]

def Block (body : List Stmt) (ts : List Token) : Prop := ∃ us, BodySpelled body us ∧ ts = .leftBrace :: (us ++ [.rightBrace])

-- What is read behind statements, expressions or pairs that were read before, which stand in reverse.
def Further (spelled : List α → List Token → Prop) (read result : List α) (ts : List Token) : Prop :=
  ∃ new, result = read.reverse ++ new ∧ spelled new ts

def Closed (spelled : List α → List Token → Prop) (close : Token) (new : List α) (ts : List Token) : Prop :=
  ∃ us, spelled new us ∧ ts = us ++ [close]

-- Pairs up to the end of their hash. Behind a comma there may be none.
def PairsClosed (new : List (Expr × Expr)) (ts : List Token) : Prop :=
  ∃ us, PairsSpelled new us ∧ (ts = us ++ [.rightBrace] ∨ new ≠ [] ∧ ts = us ++ [.comma, .rightBrace])

-- Every function reads what it says if its fuel is enough for the tokens that are left. The bounds differ by the calls that
-- a function makes before it passes a token.
structure Faithful (fuel : Nat) : Prop where
  sentence (c : Cursor) (enough : 8 * c.tokens.length + 3 ≤ fuel) : Reads c (sentence fuel) Stmt.Spelled
  declared (c : Cursor) (start : Span) (mutability : Mutability) (rest : List Token)
    (next : c.tokens = mutability.token :: rest) (enough : 8 * c.tokens.length + 2 ≤ fuel) :
    Reads c (declared fuel start mutability) Stmt.Spelled
  block (c : Cursor) (enough : 8 * c.tokens.length + 1 ≤ fuel) : Reads c (block fuel) Block
  blockRest (c : Cursor) (read : List Stmt) (enough : 8 * c.tokens.length + 4 ≤ fuel) :
    Reads c (blockRest fuel read) (Further (Closed BodySpelled .rightBrace) read)
  expression (c : Cursor) (level : Nat) (enough : 8 * c.tokens.length + 2 ≤ fuel) :
    Reads c (expression fuel level) Expr.Spelled
  extend (c : Cursor) (level : Nat) (left : Expr) (enough : 8 * c.tokens.length + 1 ≤ fuel) :
    Reads c (extend fuel level left) fun e ts => ∀ us, left.Spelled us → e.Spelled (us ++ ts)
  operand (c : Cursor) (enough : 8 * c.tokens.length + 1 ≤ fuel) : Reads c (operand fuel) Expr.Spelled
  list (c : Cursor) (close : Token) (enough : 8 * c.tokens.length + 4 ≤ fuel) :
    Reads c (list fuel close) (Closed ListSpelled close)
  listRest (c : Cursor) (close : Token) (read : List Expr) (enough : 8 * c.tokens.length + 3 ≤ fuel) :
    Reads c (listRest fuel close read) (Further (fun new ts => new ≠ [] ∧ Closed ListSpelled close new ts) read)
  pairs (c : Cursor) (read : List (Expr × Expr)) (enough : 8 * c.tokens.length + 3 ≤ fuel) :
    Reads c (pairs fuel read) (Further PairsClosed read)

variable {fuel : Nat}

theorem Faithful.statement (below : Faithful fuel) (c : Cursor) (enough : 8 * c.tokens.length + 3 ≤ fuel) :
    Reads c (statement fuel) Ended := by
  rw [statement_closed]
  apply reads_bind (below.sentence c enough)
  rintro s ts d - spelled
  apply reads_bind (reads_eat .semicolon)
  rintro found _ e - rfl
  apply reads_pure
  cases found with
  | true => exact .inr ⟨ts, spelled, rfl⟩
  | false => exact .inl (by simpa using spelled)

theorem reads_valued (below : Faithful fuel) {start : Span} {made : Span → Expr → Stmt} (before : List Token)
    (enough : 8 * c.tokens.length + 2 ≤ fuel)
    (spelled : ∀ {span value ts}, Expr.Spelled value ts → (made span value).Spelled (before ++ ts)) :
    Reads c (do let value ← expression fuel 0; return made (← spanFrom start) value) fun s ts => s.Spelled (before ++ ts) := by
  apply reads_bind (below.expression c 0 enough)
  rintro value ts d - inner
  apply reads_node
  intro span
  simpa using spelled inner

theorem reads_sentence (below : Faithful fuel) (enough : 8 * c.tokens.length + 3 ≤ fuel + 1) :
    Reads c (sentence (fuel + 1)) Stmt.Spelled := by
  apply reads_get
  apply reads_get
  have other (start : Span) : Reads c
      (do
        let value ← expression fuel 0
        return Stmt.expression (← spanFrom start) value) Stmt.Spelled :=
    reads_valued below [] (by omega) .expression
  obtain ⟨rest, position, previous⟩ := c
  cases rest with
  | nil => exact other _
  | cons l rest =>
    obtain ⟨t, place⟩ := l
    simp only [Cursor.tokens, List.map_cons, List.length_cons] at enough
    cases t with
    | letWord =>
      exact below.declared _ _ .fixed _ rfl (by simp only [Cursor.tokens, List.map_cons, List.length_cons]; omega)
    | varWord =>
      exact below.declared _ _ .assignable _ rfl (by simp only [Cursor.tokens, List.map_cons, List.length_cons]; omega)
    | returnWord =>
      apply reads_pass rfl
      intro d left
      exact reads_valued below [.returnWord] (by rw [left]; omega) .returns
    | identifier name =>
      cases rest with
      | nil => exact other _
      | cons l rest =>
        obtain ⟨t, place'⟩ := l
        cases t with
        | assign =>
          apply reads_pass rfl
          intro d left
          apply reads_pass left
          intro e left
          simp only [List.map_cons, List.length_cons] at enough
          exact reads_valued below [.identifier name, .assign] (by rw [left]; omega) .assign
        | _ => exact other _
    | _ => exact other _

theorem reads_declared (below : Faithful fuel) {start : Span} {mutability : Mutability} {rest : List Token}
    (next : c.tokens = mutability.token :: rest) (enough : 8 * c.tokens.length + 2 ≤ fuel + 1) :
    Reads c (declared (fuel + 1) start mutability) Stmt.Spelled := by
  rw [next, List.length_cons] at enough
  apply reads_pass next
  intro d left
  apply reads_then reads_expectIdentifier
  rintro name _ e shorter rfl
  rw [left] at shorter
  apply reads_after
  intro f shorter'
  exact reads_valued below [mutability.token, .identifier name, .assign] (by omega) .declare

theorem reads_block (below : Faithful fuel) (enough : 8 * c.tokens.length + 1 ≤ fuel + 1) :
    Reads c (block (fuel + 1)) Block := by
  apply reads_after
  intro d shorter
  apply reads_mono (below.blockRest d [] (by omega))
  rintro body ts ⟨new, rfl, us, spelled, rfl⟩
  exact ⟨us, spelled, rfl⟩

theorem Ended.body {s : Stmt} {rest : List Stmt} {ts us : List Token} (ended : Ended s ts) (spelled : BodySpelled rest us) :
    BodySpelled (s :: rest) (ts ++ us) := by
  rcases ended with here | ⟨vs, here, rfl⟩
  · exact .bare here spelled
  · rw [List.append_assoc]
    exact .closed here spelled

theorem Ended.length_pos {s : Stmt} {ts : List Token} (ended : Ended s ts) : 0 < ts.length := by
  rcases ended with here | ⟨vs, here, rfl⟩
  · exact List.length_pos_iff.mpr here.ne_nil
  · simp

theorem reads_blockRest (below : Faithful fuel) {read : List Stmt} (enough : 8 * c.tokens.length + 4 ≤ fuel + 1) :
    Reads c (blockRest (fuel + 1) read) (Further (Closed BodySpelled .rightBrace) read) := by
  apply reads_get
  rw [c.peek_tokens]
  have more : Reads c (do let s ← statement fuel; blockRest fuel (s :: read))
      (Further (Closed BodySpelled .rightBrace) read) := by
    apply reads_then (below.statement c (by omega))
    intro s ts d shorter ended
    have positive := ended.length_pos
    apply reads_mono (below.blockRest d (s :: read) (by omega))
    rintro body _ ⟨new, rfl, us, spelled, rfl⟩
    refine ⟨s :: new, by simp, ts ++ us, ended.body spelled, ?_⟩
    rw [List.append_assoc]
  cases next : c.tokens with
  | nil => exact reads_refuse _
  | cons t rest =>
    cases t with
    | rightBrace =>
      apply reads_pass next
      intro d left
      exact reads_pure ⟨[], by simp, [], .nil, rfl⟩
    | _ => exact more

theorem reads_expression (below : Faithful fuel) {level : Nat} (enough : 8 * c.tokens.length + 2 ≤ fuel + 1) :
    Reads c (expression (fuel + 1) level) Expr.Spelled := by
  apply reads_then (below.operand c (by omega))
  intro left ts d shorter spelled
  apply reads_mono (below.extend d level left (by omega))
  intro e us whole
  exact whole ts spelled

theorem reads_extend (below : Faithful fuel) {level : Nat} {left : Expr} (enough : 8 * c.tokens.length + 1 ≤ fuel + 1) :
    Reads c (extend (fuel + 1) level left) fun e ts => ∀ us, left.Spelled us → e.Spelled (us ++ ts) := by
  -- What is made of the expression so far and some tokens is extended in turn.
  have onward (made : Expr) (ts : List Token) {d : Cursor} (shorter : d.tokens.length < c.tokens.length)
      (spelled : ∀ us, left.Spelled us → made.Spelled (us ++ ts)) :
      Reads d (extend fuel level made) fun e vs => ∀ us, left.Spelled us → e.Spelled (us ++ (ts ++ vs)) := by
    apply reads_mono (below.extend d level made (by omega))
    intro e vs whole us here
    rw [← List.append_assoc]
    exact whole _ (spelled us here)
  apply reads_get
  rw [c.peek_tokens]
  cases next : c.tokens with
  | nil => exact reads_pure fun us here => by simpa using here
  | cons t rest =>
    have total : c.tokens.length = rest.length + 1 := by rw [next, List.length_cons]
    apply reads_ite
    · intro _
      exact reads_pure fun us here => by simpa using here
    intro tight
    have infixed (operator : String) (known : t.operator? = some operator) : Reads c
        (do
          advance
          let right ← expression fuel t.precedence
          extend fuel level (.binary (left.span.merge right.span) operator left right))
        fun e ts => ∀ us, left.Spelled us → e.Spelled (us ++ ts) := by
      apply reads_pass next
      intro d here
      apply reads_then (below.expression d t.precedence (by rw [here]; omega))
      intro right ts e shorter spelled
      rw [here] at shorter
      apply onward (.binary _ operator left right) (t :: ts) (by omega)
      intro us first
      exact .binary ⟨by omega, known⟩ first spelled
    cases t with
    | leftParen =>
      apply reads_pass next
      intro d here
      apply reads_then (below.list d .rightParen (by rw [here]; omega))
      rintro arguments _ e shorter ⟨ts, spelled, rfl⟩
      rw [here] at shorter
      apply reads_then (reads_spanFrom _)
      rintro span _ f same rfl
      have made := onward (.call span left arguments) (.leftParen :: (ts ++ [.rightParen])) (d := f) (by omega)
        fun us first => .call first spelled
      simpa using made
    | leftBracket =>
      apply reads_pass next
      intro d here
      apply reads_then (below.expression d 0 (by rw [here]; omega))
      intro position ts e shorter spelled
      rw [here] at shorter
      apply reads_after
      intro f shorter'
      apply reads_then (reads_spanFrom _)
      rintro span _ g same rfl
      have made := onward (.index span left position) (.leftBracket :: (ts ++ [.rightBracket])) (d := g) (by omega)
        fun us first => .index first spelled
      simpa using made
    | plus => exact infixed "+" rfl
    | minus => exact infixed "-" rfl
    | asterisk => exact infixed "*" rfl
    | slash => exact infixed "/" rfl
    | less => exact infixed "<" rfl
    | lessEqual => exact infixed "<=" rfl
    | greater => exact infixed ">" rfl
    | greaterEqual => exact infixed ">=" rfl
    | equal => exact infixed "==" rfl
    | notEqual => exact infixed "!=" rfl
    | _ => exact absurd (Nat.zero_le level) tight

theorem reads_leaf {t : Token} {rest : List Token} {made : Expr} (next : c.tokens = t :: rest) (spelled : made.Spelled [t]) :
    Reads c (do advance; return made) Expr.Spelled := by
  apply reads_pass next
  intro d _
  exact reads_pure spelled

theorem reads_conditional (below : Faithful fuel) {start : Span} {rest : List Token} (next : c.tokens = .ifWord :: rest)
    (enough : 8 * c.tokens.length ≤ fuel) : Reads c
      (do
        advance
        expect .leftParen
        let condition ← expression fuel 0
        expect .rightParen
        let consequence ← block fuel
        if ← eat .elseWord then
          let alternative ← block fuel
          return .conditional (← spanFrom start) condition consequence (some alternative)
        else return .conditional (← spanFrom start) condition consequence none)
      Expr.Spelled := by
  have total : c.tokens.length = rest.length + 1 := by rw [next, List.length_cons]
  apply reads_pass next
  intro d here
  apply reads_after
  intro e shorter
  rw [here] at shorter
  apply reads_then (below.expression e 0 (by omega))
  intro condition ts f further tested
  apply reads_after
  intro g fewer
  apply reads_then (below.block g (by omega))
  rintro consequence _ h onward ⟨us, chosen, rfl⟩
  apply reads_then (reads_eat .elseWord)
  rintro found _ k last rfl
  apply reads_ite
  · rintro rfl
    apply reads_bind (below.block k (by omega))
    rintro alternative _ - - ⟨vs, other, rfl⟩
    apply reads_node
    intro span
    simpa using Expr.Spelled.choice tested chosen other
  · intro absent
    apply reads_node
    intro span
    simpa [absent] using Expr.Spelled.conditional tested chosen

theorem reads_function (below : Faithful fuel) {start : Span} {rest : List Token} (next : c.tokens = .fnWord :: rest)
    (enough : 8 * c.tokens.length ≤ fuel) : Reads c
      (do
        advance
        expect .leftParen
        let names ← if ← eat .rightParen then pure [] else parameters fuel []
        let body ← block fuel
        return .function (← spanFrom start) none names body)
      Expr.Spelled := by
  have total : c.tokens.length = rest.length + 1 := by rw [next, List.length_cons]
  apply reads_pass next
  intro d here
  apply reads_after
  intro e shorter
  rw [here] at shorter
  have finish (names : List String) {vs : List Token} {g : Cursor} (fewer : g.tokens.length ≤ e.tokens.length)
      (listed : vs = parameterTokens names ++ [.rightParen]) :
      Reads g (do let body ← block fuel; return Expr.function (← spanFrom start) none names body)
        fun a us => Expr.Spelled a (.fnWord :: .leftParen :: (vs ++ us)) := by
    apply reads_bind (below.block g (by omega))
    rintro body _ - - ⟨us, spelled, rfl⟩
    apply reads_node
    intro span
    simpa [listed] using Expr.Spelled.function spelled
  apply reads_then (reads_eat .rightParen)
  rintro empty _ f further rfl
  apply reads_ite
  · rintro rfl
    exact finish [] (by omega) rfl
  · intro filled
    apply reads_then (reads_parameters fuel [] (by omega))
    rintro names _ g onward ⟨new, -, rfl, rfl⟩
    apply reads_mono (finish names (g := g) (by omega) rfl)
    intro a us spelled
    simpa [filled] using spelled

theorem reads_operand (below : Faithful fuel) (enough : 8 * c.tokens.length + 1 ≤ fuel + 1) :
    Reads c (operand (fuel + 1)) Expr.Spelled := by
  apply reads_get
  apply reads_get
  rw [c.peek_tokens]
  cases next : c.tokens with
  | nil => exact reads_refuse _
  | cons t rest =>
    have total : c.tokens.length = rest.length + 1 := by rw [next, List.length_cons]
    have prefixed {operator : String} (spelled : ∀ {s right ts}, Expr.Spelled right ts →
        Expr.Spelled (.unary s operator right) (t :: ts)) : Reads c
        (do advance; let right ← expression fuel unaryPrecedence; return .unary (← spanFrom c.here) operator right)
        Expr.Spelled := by
      apply reads_pass next
      intro d here
      apply reads_bind (below.expression d unaryPrecedence (by rw [here]; omega))
      rintro right ts - - inner
      apply reads_node
      intro span
      simpa using spelled inner
    cases t with
    | identifier name => exact reads_leaf next .identifier
    | integer n => exact reads_leaf next .integer
    | float x => exact reads_leaf next .float
    | string s => exact reads_leaf next .string
    | trueWord => exact reads_leaf next .yes
    | falseWord => exact reads_leaf next .no
    | bang => exact prefixed .bang
    | minus => exact prefixed .minus
    | leftParen =>
      apply reads_pass next
      intro d here
      apply reads_bind (below.expression d 0 (by rw [here]; omega))
      rintro inner ts - - spelled
      apply reads_after
      intro e _
      apply reads_node
      intro span
      exact .parentheses spelled
    | ifWord => exact reads_conditional below next (by omega)
    | fnWord => exact reads_function below next (by omega)
    | leftBracket =>
      apply reads_pass next
      intro d here
      apply reads_bind (below.list d .rightBracket (by rw [here]; omega))
      rintro elements _ - - ⟨ts, spelled, rfl⟩
      apply reads_node
      intro span
      simpa using Expr.Spelled.array spelled
    | leftBrace =>
      apply reads_pass next
      intro d here
      apply reads_bind (below.pairs d [] (by rw [here]; omega))
      rintro entries _ - - ⟨new, rfl, us, spelled, ends⟩
      apply reads_node
      intro span
      rcases ends with rfl | ⟨nonempty, rfl⟩
      · simpa using Expr.Spelled.hash spelled
      · simpa using Expr.Spelled.trailing nonempty spelled
    | _ => exact reads_refuse _

theorem reads_list (below : Faithful fuel) {close : Token} (enough : 8 * c.tokens.length + 4 ≤ fuel + 1) :
    Reads c (list (fuel + 1) close) (Closed ListSpelled close) := by
  apply reads_then (reads_eat close)
  rintro empty _ d shorter rfl
  apply reads_ite
  · rintro rfl
    exact reads_pure ⟨[], .nil, rfl⟩
  · intro filled
    apply reads_mono (below.listRest d close [] (by omega))
    rintro es _ ⟨new, rfl, -, us, spelled, rfl⟩
    exact ⟨us, spelled, by simp [filled]⟩

theorem reads_listRest (below : Faithful fuel) {close : Token} {read : List Expr}
    (enough : 8 * c.tokens.length + 3 ≤ fuel + 1) :
    Reads c (listRest (fuel + 1) close read) (Further (fun new ts => new ≠ [] ∧ Closed ListSpelled close new ts) read) := by
  apply reads_then (below.expression c 0 (by omega))
  intro e ts d shorter spelled
  have positive := List.length_pos_iff.mpr spelled.ne_nil
  apply reads_then (reads_eat .comma)
  rintro more _ f further rfl
  apply reads_ite
  · rintro rfl
    apply reads_mono (below.listRest f close (e :: read) (by omega))
    rintro es _ ⟨new, rfl, others, us, rest, rfl⟩
    exact ⟨e :: new, by simp, List.cons_ne_nil _ _, _, .cons spelled others rest, by simp⟩
  · intro last
    apply reads_bind (reads_expect close)
    rintro _ _ - - rfl
    exact reads_pure ⟨[e], by simp, List.cons_ne_nil _ _, ts, .single spelled, by simp [last]⟩

theorem PairsClosed.cons {key value : Expr} {new : List (Expr × Expr)} {ts us vs : List Token} (first : key.Spelled ts)
    (second : value.Spelled us) (rest : PairsClosed new vs) :
    PairsClosed ((key, value) :: new) (ts ++ .colon :: (us ++ .comma :: vs)) := by
  obtain ⟨ws, spelled, ends⟩ := rest
  by_cases empty : new = []
  · subst empty
    cases spelled.of_nil
    rcases ends with rfl | ⟨nonempty, -⟩
    · exact ⟨_, .single first second, .inr ⟨List.cons_ne_nil _ _, by simp⟩⟩
    · exact absurd rfl nonempty
  · refine ⟨_, .cons first second empty spelled, ?_⟩
    rcases ends with rfl | ⟨-, rfl⟩
    · exact .inl (by simp)
    · exact .inr ⟨List.cons_ne_nil _ _, by simp⟩

theorem reads_pairs (below : Faithful fuel) {read : List (Expr × Expr)} (enough : 8 * c.tokens.length + 3 ≤ fuel + 1) :
    Reads c (pairs (fuel + 1) read) (Further PairsClosed read) := by
  apply reads_then (reads_eat .rightBrace)
  rintro empty _ d shorter rfl
  apply reads_ite
  · rintro rfl
    exact reads_pure ⟨[], by simp, [], .nil, .inl rfl⟩
  intro nonempty
  apply reads_then (below.expression d 0 (by omega))
  intro key ts e further first
  apply reads_after
  intro f fewer
  apply reads_then (below.expression f 0 (by omega))
  intro value us g onward second
  apply reads_then (reads_eat .comma)
  rintro more _ h left rfl
  apply reads_ite
  · rintro rfl
    apply reads_mono (below.pairs h ((key, value) :: read) (by simp only [List.length_singleton, if_true] at left; omega))
    rintro entries vs ⟨new, rfl, rest⟩
    refine ⟨(key, value) :: new, by simp, ?_⟩
    simpa [nonempty] using PairsClosed.cons first second rest
  · intro last
    apply reads_bind (reads_expect .rightBrace)
    rintro _ _ - - rfl
    exact reads_pure ⟨[(key, value)], by simp, _, .single first second, .inl (by simp [nonempty, last])⟩

-- By induction on the fuel: each function reads its parts with less, from fewer tokens where it has passed one.
theorem faithful (fuel : Nat) : Faithful fuel := by
  induction fuel with
  | zero =>
    constructor
    all_goals intros; omega
  | succ fuel below =>
    exact ⟨fun _ => reads_sentence below, fun _ _ _ _ => reads_declared below, fun _ => reads_block below,
      fun _ _ => reads_blockRest below, fun _ _ => reads_expression below, fun _ _ _ => reads_extend below,
      fun _ => reads_operand below, fun _ _ => reads_list below, fun _ _ _ => reads_listRest below,
      fun _ _ => reads_pairs below⟩

end Parsing
end StackScript
