import StackScript.Proofs.Syntax.Unplaced

-- Reading a program does not look at places: lexemes without their places are read in the same way, as the same trees
-- without theirs, and end in the same error.
namespace StackScript

def Cursor.unplaced (c : Cursor) : Cursor := ⟨c.rest.map Lexeme.unplaced, c.position, .unknown⟩

def Halt.unplaced : Halt → Halt
  | .error e => .error e.unplaced
  | .exhausted => .exhausted

theorem Cursor.here_unplaced (c : Cursor) : c.unplaced.here = .unknown := by
  obtain ⟨rest, position, previous⟩ := c
  cases rest with
  | nil => rfl
  | cons l rest => rfl

theorem Cursor.peek_unplaced (c : Cursor) : c.unplaced.peek? = c.peek? := by
  obtain ⟨rest, position, previous⟩ := c
  cases rest with
  | nil => rfl
  | cons l rest => rfl

theorem Cursor.advance_unplaced (c : Cursor) : c.unplaced.advance = c.advance.unplaced := by
  obtain ⟨rest, position, previous⟩ := c
  cases rest with
  | nil => rfl
  | cons l rest => rfl

namespace Parsing

variable {α β : Type} {g : α → α} {k : β → β} {x y : Parsing α}

def unplacedResult (g : α → α) : EStateM.Result Halt Cursor α → EStateM.Result Halt Cursor α
  | .ok a c => .ok (g a) c.unplaced
  | .error h c => .error h.unplaced c.unplaced

-- Without places, `y` does what `x` does, and gives what `x` gives, as `g` takes the places out of it.
def Blind (g : α → α) (x y : Parsing α) : Prop := ∀ c, y c.unplaced = unplacedResult g (x c)

theorem blind_bind {b b' : Parsing β} {f f' : β → Parsing α} (first : Blind k b b')
    (next : ∀ v, Blind g (f v) (f' (k v))) : Blind g (b >>= f) (b' >>= f') := by
  intro c
  have here := first c
  simp only [bind, EStateM.bind]
  rw [here]
  cases b c with
  | ok v d => exact next v d
  | error h d => rfl

theorem blind_pure {a b : α} (same : b = g a) : Blind g (pure a) (pure b) := by
  intro c
  rw [same]
  rfl

theorem blind_exhausted : Blind g (throw .exhausted) (throw .exhausted) := fun _ => rfl

theorem blind_get : Blind Cursor.unplaced get get := fun _ => rfl

theorem blind_refuse (problem : Misread) : Blind g (refuse problem) (refuse problem) := by
  intro c
  have place := c.here_unplaced
  change EStateM.Result.error (Halt.error ⟨c.position, c.unplaced.here, problem⟩) c.unplaced = _
  rw [place]
  rfl

theorem blind_advance : Blind id advance advance := by
  intro c
  change EStateM.Result.ok () c.unplaced.advance = _
  rw [c.advance_unplaced]
  rfl

theorem blind_ite {p : Prop} [Decidable p] {x' y' : Parsing α} (yes : Blind g x y) (no : Blind g x' y') :
    Blind g (if p then x else x') (if p then y else y') := by
  split
  · exact yes
  · exact no

theorem blind_eat (t : Token) : Blind id (eat t) (eat t) := by
  apply blind_bind blind_get
  intro c
  rw [c.peek_unplaced]
  apply blind_ite
  · exact blind_bind blind_advance fun _ => blind_pure rfl
  · exact blind_pure rfl

theorem blind_expect (t : Token) : Blind id (expect t) (expect t) := by
  apply blind_bind blind_get
  intro c
  rw [c.peek_unplaced]
  exact blind_ite blind_advance (blind_refuse _)

theorem blind_expectIdentifier : Blind id expectIdentifier expectIdentifier := by
  apply blind_bind blind_get
  intro c
  rw [c.peek_unplaced]
  cases c.peek? with
  | none => exact blind_refuse _
  | some t =>
    cases t with
    | identifier name => exact blind_bind blind_advance fun _ => blind_pure rfl
    | _ => exact blind_refuse _

theorem blind_spanFrom (start : Span) : Blind (fun _ => .unknown) (spanFrom start) (spanFrom .unknown) := fun _ => rfl

theorem blind_parameters (fuel : Nat) (names : List String) : Blind id (parameters fuel names) (parameters fuel names) := by
  induction fuel generalizing names with
  | zero => exact blind_exhausted
  | succ fuel ih =>
    apply blind_bind blind_expectIdentifier
    intro name
    apply blind_bind (blind_eat .comma)
    intro more
    apply blind_ite
    · exact ih _
    · exact blind_bind (blind_expect .rightParen) fun _ => blind_pure rfl

-- What the parts of a statement or expression do, read with some fuel.
structure Unseeing (fuel : Nat) : Prop where
  statement : Blind Stmt.unplaced (statement fuel) (statement fuel)
  declaration (start : Span) (mutability : Mutability) :
    Blind Stmt.unplaced (declaration fuel start mutability) (declaration fuel .unknown mutability)
  block : Blind bodyUnplaced (block fuel) (block fuel)
  blockRest (read : List Stmt) : Blind bodyUnplaced (blockRest fuel read) (blockRest fuel (bodyUnplaced read))
  expression (level : Nat) : Blind Expr.unplaced (expression fuel level) (expression fuel level)
  extend (level : Nat) (left : Expr) : Blind Expr.unplaced (extend fuel level left) (extend fuel level left.unplaced)
  operand : Blind Expr.unplaced (operand fuel) (operand fuel)
  list (close : Token) : Blind listUnplaced (list fuel close) (list fuel close)
  listRest (close : Token) (read : List Expr) :
    Blind listUnplaced (listRest fuel close read) (listRest fuel close (listUnplaced read))
  pairs (read : List (Expr × Expr)) : Blind pairsUnplaced (pairs fuel read) (pairs fuel (pairsUnplaced read))

theorem blind_finish {start : Span} {made : Span → Stmt} {made' : Span → Stmt}
    (same : ∀ span, made' .unknown = (made span).unplaced) :
    Blind Stmt.unplaced (do let span ← spanFrom start; let _ ← eat .semicolon; return made span)
      (do let span ← spanFrom .unknown; let _ ← eat .semicolon; return made' span) := by
  apply blind_bind (blind_spanFrom start)
  intro span
  apply blind_bind (blind_eat .semicolon)
  intro _
  exact blind_pure (same span)

variable {fuel : Nat}

theorem blind_statement (below : Unseeing fuel) : Blind Stmt.unplaced (statement (fuel + 1)) (statement (fuel + 1)) := by
  apply blind_bind blind_get
  intro c
  apply blind_bind blind_get
  intro d
  rw [c.here_unplaced]
  have other : Blind Stmt.unplaced
      (do
        let value ← expression fuel 0
        let span ← spanFrom c.here
        let _ ← eat .semicolon
        return .expression span value)
      (do
        let value ← expression fuel 0
        let span ← spanFrom .unknown
        let _ ← eat .semicolon
        return .expression span value) :=
    blind_bind (below.expression 0) fun _ => blind_finish fun _ => rfl
  obtain ⟨rest, position, previous⟩ := d
  cases rest with
  | nil => exact other
  | cons l rest =>
    obtain ⟨t, place⟩ := l
    cases t with
    | letWord => exact below.declaration _ _
    | varWord => exact below.declaration _ _
    | returnWord =>
      apply blind_bind blind_advance
      intro _
      exact blind_bind (below.expression 0) fun _ => blind_finish fun _ => rfl
    | identifier name =>
      cases rest with
      | nil => exact other
      | cons l rest =>
        obtain ⟨t, place⟩ := l
        cases t with
        | assign =>
          apply blind_bind blind_advance
          intro _
          apply blind_bind blind_advance
          intro _
          exact blind_bind (below.expression 0) fun _ => blind_finish fun _ => rfl
        | _ => exact other
    | _ => exact other

theorem blind_declaration (below : Unseeing fuel) (start : Span) (mutability : Mutability) :
    Blind Stmt.unplaced (declaration (fuel + 1) start mutability) (declaration (fuel + 1) .unknown mutability) := by
  apply blind_bind blind_advance
  intro _
  apply blind_bind blind_expectIdentifier
  intro name
  apply blind_bind (blind_expect .assign)
  intro _
  apply blind_bind (below.expression 0)
  intro value
  apply blind_finish
  intro span
  rw [Stmt.unplaced, Expr.unplaced_named, id]

theorem blind_block (below : Unseeing fuel) : Blind bodyUnplaced (block (fuel + 1)) (block (fuel + 1)) :=
  blind_bind (blind_expect .leftBrace) fun _ => below.blockRest []

theorem blind_blockRest (below : Unseeing fuel) (read : List Stmt) :
    Blind bodyUnplaced (blockRest (fuel + 1) read) (blockRest (fuel + 1) (bodyUnplaced read)) := by
  apply blind_bind blind_get
  intro c
  rw [c.peek_unplaced]
  have more : Blind bodyUnplaced (do let s ← statement fuel; blockRest fuel (s :: read))
      (do let s ← statement fuel; blockRest fuel (s :: bodyUnplaced read)) :=
    blind_bind below.statement fun s => below.blockRest (s :: read)
  cases c.peek? with
  | none => exact blind_refuse _
  | some t =>
    cases t with
    | rightBrace =>
      apply blind_bind blind_advance
      intro _
      apply blind_pure
      rw [bodyUnplaced_eq, bodyUnplaced_eq, List.map_reverse]
    | _ => exact more

theorem blind_expression (below : Unseeing fuel) (level : Nat) :
    Blind Expr.unplaced (expression (fuel + 1) level) (expression (fuel + 1) level) :=
  blind_bind below.operand fun left => below.extend level left

theorem blind_extend (below : Unseeing fuel) (level : Nat) (left : Expr) :
    Blind Expr.unplaced (extend (fuel + 1) level left) (extend (fuel + 1) level left.unplaced) := by
  apply blind_bind blind_get
  intro c
  rw [c.peek_unplaced]
  cases c.peek? with
  | none => exact blind_pure rfl
  | some t =>
    apply blind_ite
    · exact blind_pure rfl
    have infixed (operator : String) : Blind Expr.unplaced
        (do
          advance
          let right ← expression fuel t.precedence
          extend fuel level (.binary (left.span.merge right.span) operator left right))
        (do
          advance
          let right ← expression fuel t.precedence
          extend fuel level (.binary (left.unplaced.span.merge right.span) operator left.unplaced right)) := by
      apply blind_bind blind_advance
      intro _
      apply blind_bind (below.expression t.precedence)
      intro right
      rw [left.span_unplaced, right.span_unplaced]
      exact below.extend level _
    cases t with
    | leftParen =>
      apply blind_bind blind_advance
      intro _
      apply blind_bind (below.list .rightParen)
      intro arguments
      rw [left.span_unplaced]
      exact blind_bind (blind_spanFrom _) fun span => below.extend level (.call span left arguments)
    | leftBracket =>
      apply blind_bind blind_advance
      intro _
      apply blind_bind (below.expression 0)
      intro position
      apply blind_bind (blind_expect .rightBracket)
      intro _
      rw [left.span_unplaced]
      exact blind_bind (blind_spanFrom _) fun span => below.extend level (.index span left position)
    | _ => exact infixed _

theorem blind_leaf {made : Expr} {made' : Expr} (same : made' = made.unplaced) :
    Blind Expr.unplaced (do advance; return made) (do advance; return made') :=
  blind_bind blind_advance fun _ => blind_pure same

theorem blind_node {start : Span} {made made' : Span → Expr} (same : ∀ span, made' .unknown = (made span).unplaced) :
    Blind Expr.unplaced (do return made (← spanFrom start)) (do return made' (← spanFrom .unknown)) :=
  blind_bind (blind_spanFrom start) fun span => blind_pure (same span)

theorem blind_conditional (below : Unseeing fuel) (start : Span) : Blind Expr.unplaced
    (do
      advance
      expect .leftParen
      let condition ← expression fuel 0
      expect .rightParen
      let consequence ← block fuel
      if ← eat .elseWord then
        let alternative ← block fuel
        return .conditional (← spanFrom start) condition consequence (some alternative)
      else return .conditional (← spanFrom start) condition consequence none)
    (do
      advance
      expect .leftParen
      let condition ← expression fuel 0
      expect .rightParen
      let consequence ← block fuel
      if ← eat .elseWord then
        let alternative ← block fuel
        return .conditional (← spanFrom .unknown) condition consequence (some alternative)
      else return .conditional (← spanFrom .unknown) condition consequence none) := by
  apply blind_bind blind_advance
  intro _
  apply blind_bind (blind_expect .leftParen)
  intro _
  apply blind_bind (below.expression 0)
  intro condition
  apply blind_bind (blind_expect .rightParen)
  intro _
  apply blind_bind below.block
  intro consequence
  apply blind_bind (blind_eat .elseWord)
  intro further
  apply blind_ite
  · exact blind_bind below.block fun _ => blind_node fun _ => rfl
  · exact blind_node fun _ => rfl

theorem blind_function (below : Unseeing fuel) (start : Span) : Blind Expr.unplaced
    (do
      advance
      expect .leftParen
      let names ← if ← eat .rightParen then pure [] else parameters fuel []
      let body ← block fuel
      return .function (← spanFrom start) none names body)
    (do
      advance
      expect .leftParen
      let names ← if ← eat .rightParen then pure [] else parameters fuel []
      let body ← block fuel
      return .function (← spanFrom .unknown) none names body) := by
  apply blind_bind blind_advance
  intro _
  apply blind_bind (blind_expect .leftParen)
  intro _
  apply blind_bind (blind_eat .rightParen)
  intro empty
  have finish (names : List String) : Blind Expr.unplaced
      (do let body ← block fuel; return .function (← spanFrom start) none names body)
      (do let body ← block fuel; return .function (← spanFrom .unknown) none names body) :=
    blind_bind below.block fun _ => blind_node fun _ => rfl
  apply blind_ite
  · exact blind_bind (blind_pure (g := id) rfl) finish
  · exact blind_bind (blind_parameters fuel []) finish

theorem blind_operand (below : Unseeing fuel) : Blind Expr.unplaced (operand (fuel + 1)) (operand (fuel + 1)) := by
  apply blind_bind blind_get
  intro c
  apply blind_bind blind_get
  intro d
  rw [c.here_unplaced, d.peek_unplaced]
  have prefixed (operator : String) : Blind Expr.unplaced
      (do advance; let right ← expression fuel unaryPrecedence; return .unary (← spanFrom c.here) operator right)
      (do advance; let right ← expression fuel unaryPrecedence; return .unary (← spanFrom .unknown) operator right) := by
    apply blind_bind blind_advance
    intro _
    exact blind_bind (below.expression unaryPrecedence) fun _ => blind_node fun _ => rfl
  cases d.peek? with
  | none => exact blind_refuse _
  | some t =>
    cases t with
    | identifier name => exact blind_leaf rfl
    | integer n => exact blind_leaf rfl
    | float x => exact blind_leaf rfl
    | string s => exact blind_leaf rfl
    | trueWord => exact blind_leaf rfl
    | falseWord => exact blind_leaf rfl
    | bang => exact prefixed "!"
    | minus => exact prefixed "-"
    | leftParen =>
      apply blind_bind blind_advance
      intro _
      apply blind_bind (below.expression 0)
      intro inner
      apply blind_bind (blind_expect .rightParen)
      intro _
      apply blind_node
      intro span
      rw [inner.unplaced_placed, inner.placed_unplaced]
    | ifWord => exact blind_conditional below c.here
    | fnWord => exact blind_function below c.here
    | leftBracket =>
      apply blind_bind blind_advance
      intro _
      exact blind_bind (below.list .rightBracket) fun _ => blind_node fun _ => rfl
    | leftBrace =>
      apply blind_bind blind_advance
      intro _
      exact blind_bind (below.pairs []) fun _ => blind_node fun _ => rfl
    | _ => exact blind_refuse _

theorem blind_list (below : Unseeing fuel) (close : Token) :
    Blind listUnplaced (list (fuel + 1) close) (list (fuel + 1) close) := by
  apply blind_bind (blind_eat close)
  intro empty
  exact blind_ite (blind_pure rfl) (below.listRest close [])

theorem blind_listRest (below : Unseeing fuel) (close : Token) (read : List Expr) :
    Blind listUnplaced (listRest (fuel + 1) close read) (listRest (fuel + 1) close (listUnplaced read)) := by
  apply blind_bind (below.expression 0)
  intro e
  apply blind_bind (blind_eat .comma)
  intro more
  apply blind_ite
  · exact below.listRest close (e :: read)
  · apply blind_bind (blind_expect close)
    intro _
    apply blind_pure
    rw [listUnplaced_eq, listUnplaced_eq, List.map_reverse, List.map_cons]

theorem blind_pairs (below : Unseeing fuel) (read : List (Expr × Expr)) :
    Blind pairsUnplaced (pairs (fuel + 1) read) (pairs (fuel + 1) (pairsUnplaced read)) := by
  apply blind_bind (blind_eat .rightBrace)
  intro empty
  apply blind_ite
  · apply blind_pure
    rw [pairsUnplaced_eq, pairsUnplaced_eq, List.map_reverse]
  apply blind_bind (below.expression 0)
  intro key
  apply blind_bind (blind_expect .colon)
  intro _
  apply blind_bind (below.expression 0)
  intro value
  apply blind_bind (blind_eat .comma)
  intro more
  apply blind_ite
  · exact below.pairs ((key, value) :: read)
  · apply blind_bind (blind_expect .rightBrace)
    intro _
    apply blind_pure
    rw [pairsUnplaced_eq, pairsUnplaced_eq, List.map_reverse, List.map_cons]

-- By induction on the fuel: each function reads its parts with less.
theorem unseeing (fuel : Nat) : Unseeing fuel := by
  induction fuel with
  | zero =>
    constructor
    all_goals intros; exact blind_exhausted
  | succ fuel below =>
    exact ⟨blind_statement below, blind_declaration below, blind_block below, blind_blockRest below,
      blind_expression below, blind_extend below, blind_operand below, blind_list below, blind_listRest below,
      blind_pairs below⟩

end Parsing

theorem Cursor.resync_unplaced (depth : Nat) (rest : List Lexeme) (position : Nat) (previous : Span) :
    resync depth (rest.map Lexeme.unplaced) position .unknown = (resync depth rest position previous).unplaced := by
  induction rest generalizing depth position previous with
  | nil => rfl
  | cons l rest ih =>
    obtain ⟨t, place⟩ := l
    rw [List.map_cons, Lexeme.unplaced]
    cases t with
    | leftBrace => exact ih _ _ _
    | rightBrace => exact ih _ _ _
    | semicolon =>
      by_cases outside : depth = 0
      · simp only [resync, if_pos outside]
        rfl
      · simp only [resync, if_neg outside]
        exact ih _ _ _
    | _ => exact ih _ _ _

namespace Parsed

def unplaced (p : Parsed) : Parsed := ⟨bodyUnplaced p.statements, p.errors.map ParseError.unplaced⟩

theorem collect_unplaced (depth fuel : Nat) (statements : List Stmt) (errors : List ParseError) (c : Cursor) :
    collect depth fuel (bodyUnplaced statements) (errors.map ParseError.unplaced) c.unplaced =
      (collect depth fuel statements errors c).unplaced := by
  have ended : (⟨(bodyUnplaced statements).reverse, (errors.map ParseError.unplaced).reverse⟩ : Parsed) =
      unplaced ⟨statements.reverse, errors.reverse⟩ := by
    rw [unplaced, bodyUnplaced_eq, bodyUnplaced_eq, List.map_reverse, List.map_reverse]
  induction fuel generalizing statements errors c with
  | zero => exact ended
  | succ fuel ih =>
    rw [collect, collect]
    have guard : (c.unplaced.rest.isEmpty || maxErrors ≤ (errors.map ParseError.unplaced).length) =
        (c.rest.isEmpty || maxErrors ≤ errors.length) := by
      rw [List.length_map, Cursor.unplaced, List.isEmpty_map]
    rw [guard]
    split
    · exact ended
    · rw [(Parsing.unseeing depth).statement c]
      cases Parsing.statement depth c with
      | ok s d => exact ih (s :: statements) errors d (by simp [unplaced, bodyUnplaced_eq])
      | error h d =>
        cases h with
        | exhausted => exact ended
        | error e =>
          have later := ih statements (e :: errors) (.resync 0 d.rest d.position d.previous)
            (by simp [unplaced, bodyUnplaced_eq])
          rw [← Cursor.resync_unplaced] at later
          exact later

theorem ofLexemes_unplaced (lexemes : List Lexeme) :
    ofLexemes (lexemes.map Lexeme.unplaced) = (ofLexemes lexemes).unplaced := by
  rw [ofLexemes, ofLexemes, List.length_map]
  exact collect_unplaced _ _ [] [] (.start lexemes)

theorem ofLexemes_same {ls ms : List Lexeme} (same : ls.map Lexeme.token = ms.map Lexeme.token) :
    (ofLexemes ls).unplaced = (ofLexemes ms).unplaced := by
  rw [← ofLexemes_unplaced, ← ofLexemes_unplaced, lexemes_unplaced, lexemes_unplaced, same]

end Parsed
end StackScript
