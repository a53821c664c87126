import StackScript.Syntax.Parse

-- Where the places of a tree and of its errors come from: each of them is put together from places of lexemes, as the least
-- range over some or as the end of one. What holds of those and is kept by both holds of all.
namespace StackScript

structure Span.Closed (P : Span → Prop) : Prop where
  unknown : P .unknown
  merge : ∀ {a b : Span}, P a → P b → P (a.merge b)
  after : ∀ {a : Span}, P a → P a.after

mutual

def Expr.Places (P : Span → Prop) : Expr → Prop
  | .identifier span _ | .integer span _ | .float span _ | .boolean span _ | .string span _ => P span
  | .unary span _ right => P span ∧ right.Places P
  | .binary span _ left right => P span ∧ left.Places P ∧ right.Places P
  | .conditional span condition consequence none => P span ∧ condition.Places P ∧ bodyPlaces P consequence
  | .conditional span condition consequence (some alternative) =>
    P span ∧ condition.Places P ∧ bodyPlaces P consequence ∧ bodyPlaces P alternative
  | .function span _ _ body => P span ∧ bodyPlaces P body
  | .call span callee arguments => P span ∧ callee.Places P ∧ listPlaces P arguments
  | .array span elements => P span ∧ listPlaces P elements
  | .hash span pairs => P span ∧ pairsPlaces P pairs
  | .index span target position => P span ∧ target.Places P ∧ position.Places P

def Stmt.Places (P : Span → Prop) : Stmt → Prop
  | .declare span _ _ value | .assign span _ value | .returns span value | .expression span value =>
    P span ∧ value.Places P

def bodyPlaces (P : Span → Prop) : List Stmt → Prop
  | [] => True
  | s :: rest => s.Places P ∧ bodyPlaces P rest

def listPlaces (P : Span → Prop) : List Expr → Prop
  | [] => True
  | e :: rest => e.Places P ∧ listPlaces P rest

def pairsPlaces (P : Span → Prop) : List (Expr × Expr) → Prop
  | [] => True
  | (key, value) :: rest => key.Places P ∧ value.Places P ∧ pairsPlaces P rest

end

section
variable {P : Span → Prop}

theorem bodyPlaces_iff {body : List Stmt} : bodyPlaces P body ↔ ∀ s ∈ body, s.Places P := by
  induction body with
  | nil => simp [bodyPlaces]
  | cons s rest ih => rw [bodyPlaces, ih, List.forall_mem_cons]

theorem listPlaces_iff {list : List Expr} : listPlaces P list ↔ ∀ e ∈ list, e.Places P := by
  induction list with
  | nil => simp [listPlaces]
  | cons e rest ih => rw [listPlaces, ih, List.forall_mem_cons]

theorem pairsPlaces_iff {pairs : List (Expr × Expr)} : pairsPlaces P pairs ↔
    ∀ p ∈ pairs, p.1.Places P ∧ p.2.Places P := by
  induction pairs with
  | nil => simp [pairsPlaces]
  | cons p rest ih => rw [pairsPlaces, ih, List.forall_mem_cons, and_assoc]

theorem bodyPlaces_reverse {body : List Stmt} (places : bodyPlaces P body) : bodyPlaces P body.reverse :=
  bodyPlaces_iff.mpr fun s present => bodyPlaces_iff.mp places s (List.mem_reverse.mp present)

theorem listPlaces_reverse {list : List Expr} (places : listPlaces P list) : listPlaces P list.reverse :=
  listPlaces_iff.mpr fun e present => listPlaces_iff.mp places e (List.mem_reverse.mp present)

theorem pairsPlaces_reverse {pairs : List (Expr × Expr)} (places : pairsPlaces P pairs) : pairsPlaces P pairs.reverse :=
  pairsPlaces_iff.mpr fun p present => pairsPlaces_iff.mp places p (List.mem_reverse.mp present)

namespace Expr.Places

variable {e : Expr}

theorem span (places : e.Places P) : P e.span := by
  cases e with
  | identifier | integer | float | boolean | string => exact places
  | conditional span condition consequence alternative => cases alternative <;> exact places.1
  | _ => exact places.1

theorem placed {s : Span} (places : e.Places P) (known : P s) : (e.placed s).Places P := by
  cases e with
  | identifier | integer | float | boolean | string => exact known
  | conditional span condition consequence alternative => cases alternative <;> exact ⟨known, places.2⟩
  | _ => exact ⟨known, places.2⟩

theorem named (places : e.Places P) (name : String) : (e.named name).Places P := by
  cases e <;> exact places

end Expr.Places

structure Cursor.Places (P : Span → Prop) (c : Cursor) : Prop where
  rest : ∀ l ∈ c.rest, P l.span
  previous : P c.previous

theorem Cursor.Places.here {c : Cursor} (closed : Span.Closed P) (places : c.Places P) : P c.here := by
  obtain ⟨rest, position, previous⟩ := c
  cases rest with
  | nil => exact closed.after places.previous
  | cons l rest => exact places.rest l List.mem_cons_self

theorem Cursor.Places.advance {c : Cursor} (places : c.Places P) : c.advance.Places P := by
  obtain ⟨rest, position, previous⟩ := c
  cases rest with
  | nil => exact places
  | cons l rest =>
    exact ⟨fun m present => places.rest m (List.mem_cons_of_mem l present), places.rest l List.mem_cons_self⟩

theorem Cursor.resync_places {rest : List Lexeme} {previous : Span} (depth position : Nat)
    (places : (⟨rest, position, previous⟩ : Cursor).Places P) : (resync depth rest position previous).Places P := by
  induction rest generalizing depth position previous with
  | nil => exact places
  | cons l rest ih =>
    have behind (n : Nat) : (⟨rest, n, l.span⟩ : Cursor).Places P :=
      ⟨fun m present => places.rest m (List.mem_cons_of_mem l present), places.rest l List.mem_cons_self⟩
    rw [resync]
    split
    · exact ih _ _ (behind _)
    · exact ih _ _ (behind _)
    · split
      · exact behind _
      · exact ih _ _ (behind _)
    · exact ih _ _ (behind _)

end

namespace Parsing

variable {P : Span → Prop} {α β : Type} {Q : α → Prop} {R : β → Prop} {x : Parsing α}

-- From lexemes whose places are `P` come results that are `Q`, and errors at such places.
def Tracked (P : Span → Prop) (Q : α → Prop) : EStateM.Result Halt Cursor α → Prop
  | .ok a c => Q a ∧ c.Places P
  | .error (.error e) c => P e.span ∧ c.Places P
  | .error .exhausted _ => True

def Tracks (P : Span → Prop) (Q : α → Prop) (x : Parsing α) : Prop := ∀ c, c.Places P → Tracked P Q (x c)

theorem tracks_bind {f : α → Parsing β} (first : Tracks P Q x) (next : ∀ a, Q a → Tracks P R (f a)) :
    Tracks P R (x >>= f) := by
  intro c places
  have here := first c places
  simp only [bind, EStateM.bind]
  cases result : x c with
  | ok a d =>
    rw [result] at here
    exact next a here.1 d here.2
  | error h d =>
    rw [result] at here
    cases h with
    | error e => exact here
    | exhausted => trivial

theorem tracks_pure {a : α} (known : Q a) : Tracks P Q (pure a) := fun _ places => ⟨known, places⟩

theorem tracks_exhausted : Tracks P Q (throw .exhausted) := fun _ _ => trivial

theorem tracks_get : Tracks P (Cursor.Places P) get := fun _ places => ⟨places, places⟩

theorem tracks_refuse (closed : Span.Closed P) (problem : Misread) : Tracks P Q (refuse problem) :=
  fun _ places => ⟨places.here closed, places⟩

theorem tracks_advance : Tracks P (fun _ => True) advance := fun _ places => ⟨trivial, places.advance⟩

theorem tracks_ite {p : Prop} [Decidable p] {y : Parsing α} (yes : Tracks P Q x) (no : Tracks P Q y) :
    Tracks P Q (if p then x else y) := by
  split
  · exact yes
  · exact no

theorem tracks_eat (t : Token) : Tracks P (fun _ => True) (eat t) := by
  apply tracks_bind tracks_get
  intro c _
  apply tracks_ite
  · exact tracks_bind tracks_advance fun _ _ => tracks_pure trivial
  · exact tracks_pure trivial

theorem tracks_expect (closed : Span.Closed P) (t : Token) : Tracks P (fun _ => True) (expect t) := by
  apply tracks_bind tracks_get
  intro c _
  exact tracks_ite tracks_advance (tracks_refuse closed _)

theorem tracks_expectIdentifier (closed : Span.Closed P) : Tracks P (fun _ => True) expectIdentifier := by
  apply tracks_bind tracks_get
  intro c _
  split
  · exact tracks_bind tracks_advance fun _ _ => tracks_pure trivial
  · exact tracks_refuse closed _

theorem tracks_spanFrom (closed : Span.Closed P) {start : Span} (known : P start) : Tracks P P (spanFrom start) :=
  fun _ places => ⟨closed.merge known places.previous, places⟩

theorem tracks_parameters (closed : Span.Closed P) (fuel : Nat) (names : List String) :
    Tracks P (fun _ => True) (parameters fuel names) := by
  induction fuel generalizing names with
  | zero => exact tracks_exhausted
  | succ fuel ih =>
    apply tracks_bind (tracks_expectIdentifier closed)
    intro name _
    apply tracks_bind (tracks_eat .comma)
    intro more _
    apply tracks_ite
    · exact ih _
    · exact tracks_bind (tracks_expect closed .rightParen) fun _ _ => tracks_pure trivial

-- What the parts of a statement or expression give, read with some fuel.
structure Tracking (P : Span → Prop) (fuel : Nat) : Prop where
  statement : Tracks P (Stmt.Places P) (statement fuel)
  declaration {start : Span} (mutability : Mutability) (known : P start) :
    Tracks P (Stmt.Places P) (declaration fuel start mutability)
  block : Tracks P (bodyPlaces P) (block fuel)
  blockRest {read : List Stmt} (known : bodyPlaces P read) : Tracks P (bodyPlaces P) (blockRest fuel read)
  expression (level : Nat) : Tracks P (Expr.Places P) (expression fuel level)
  extend (level : Nat) {left : Expr} (known : left.Places P) : Tracks P (Expr.Places P) (extend fuel level left)
  operand : Tracks P (Expr.Places P) (operand fuel)
  list (close : Token) : Tracks P (listPlaces P) (list fuel close)
  listRest (close : Token) {read : List Expr} (known : listPlaces P read) :
    Tracks P (listPlaces P) (listRest fuel close read)
  pairs {read : List (Expr × Expr)} (known : pairsPlaces P read) : Tracks P (pairsPlaces P) (pairs fuel read)

theorem tracks_finish (closed : Span.Closed P) {start : Span} {made : Span → Stmt} (known : P start)
    (places : ∀ span, P span → (made span).Places P) :
    Tracks P (Stmt.Places P) (do let span ← spanFrom start; let _ ← eat .semicolon; return made span) := by
  apply tracks_bind (tracks_spanFrom closed known)
  intro span here
  exact tracks_bind (tracks_eat .semicolon) fun _ _ => tracks_pure (places span here)

theorem tracks_node (closed : Span.Closed P) {start : Span} {made : Span → Expr} (known : P start)
    (places : ∀ span, P span → (made span).Places P) :
    Tracks P (Expr.Places P) (do return made (← spanFrom start)) :=
  tracks_bind (tracks_spanFrom closed known) fun span here => tracks_pure (places span here)

theorem tracks_leaf {made : Expr} (known : made.Places P) : Tracks P (Expr.Places P) (do advance; return made) :=
  tracks_bind tracks_advance fun _ _ => tracks_pure known

variable {fuel : Nat} {start : Span}

theorem tracks_statement (closed : Span.Closed P) (below : Tracking P fuel) :
    Tracks P (Stmt.Places P) (statement (fuel + 1)) := by
  apply tracks_bind tracks_get
  intro c places
  have start := places.here closed
  apply tracks_bind tracks_get
  intro d _
  split
  · exact below.declaration _ start
  · exact below.declaration _ start
  · apply tracks_bind tracks_advance
    intro _ _
    exact tracks_bind (below.expression 0) fun value known => tracks_finish closed start fun span here => ⟨here, known⟩
  · apply tracks_bind tracks_advance
    intro _ _
    apply tracks_bind tracks_advance
    intro _ _
    exact tracks_bind (below.expression 0) fun value known => tracks_finish closed start fun span here => ⟨here, known⟩
  · exact tracks_bind (below.expression 0) fun value known => tracks_finish closed start fun span here => ⟨here, known⟩

theorem tracks_declaration (closed : Span.Closed P) (below : Tracking P fuel) (mutability : Mutability) (known : P start) :
    Tracks P (Stmt.Places P) (declaration (fuel + 1) start mutability) := by
  apply tracks_bind tracks_advance
  intro _ _
  apply tracks_bind (tracks_expectIdentifier closed)
  intro name _
  apply tracks_bind (tracks_expect closed .assign)
  intro _ _
  apply tracks_bind (below.expression 0)
  intro value inner
  exact tracks_finish closed known fun span here => ⟨here, inner.named name⟩

theorem tracks_blockRest (closed : Span.Closed P) (below : Tracking P fuel) {read : List Stmt}
    (known : bodyPlaces P read) : Tracks P (bodyPlaces P) (blockRest (fuel + 1) read) := by
  apply tracks_bind tracks_get
  intro c _
  split
  · exact tracks_bind tracks_advance fun _ _ => tracks_pure (bodyPlaces_reverse known)
  · exact tracks_refuse closed _
  · exact tracks_bind below.statement fun s here => below.blockRest ⟨here, known⟩

theorem tracks_extend (closed : Span.Closed P) (below : Tracking P fuel) (level : Nat) {left : Expr}
    (known : left.Places P) : Tracks P (Expr.Places P) (extend (fuel + 1) level left) := by
  apply tracks_bind tracks_get
  intro c _
  split
  · exact tracks_pure known
  · rename_i t _
    apply tracks_ite
    · exact tracks_pure known
    split
    · apply tracks_bind tracks_advance
      intro _ _
      apply tracks_bind (below.list .rightParen)
      intro arguments given
      apply tracks_bind (tracks_spanFrom closed known.span)
      intro span here
      exact below.extend level ⟨here, known, given⟩
    · apply tracks_bind tracks_advance
      intro _ _
      apply tracks_bind (below.expression 0)
      intro position inner
      apply tracks_bind (tracks_expect closed .rightBracket)
      intro _ _
      apply tracks_bind (tracks_spanFrom closed known.span)
      intro span here
      exact below.extend level ⟨here, known, inner⟩
    · apply tracks_bind tracks_advance
      intro _ _
      apply tracks_bind (below.expression t.precedence)
      intro right other
      exact below.extend level ⟨closed.merge known.span other.span, known, other⟩

theorem tracks_conditional (closed : Span.Closed P) (below : Tracking P fuel) (known : P start) :
    Tracks P (Expr.Places P)
      (do
        advance
        expect .leftParen
        let condition ← expression fuel 0
        expect .rightParen
        let consequence ← block fuel
        if ← eat .elseWord then
          let alternative ← block fuel
          return .conditional (← spanFrom start) condition consequence (some alternative)
        else return .conditional (← spanFrom start) condition consequence none) := by
  apply tracks_bind tracks_advance
  intro _ _
  apply tracks_bind (tracks_expect closed .leftParen)
  intro _ _
  apply tracks_bind (below.expression 0)
  intro condition tested
  apply tracks_bind (tracks_expect closed .rightParen)
  intro _ _
  apply tracks_bind below.block
  intro consequence chosen
  apply tracks_bind (tracks_eat .elseWord)
  intro further _
  apply tracks_ite
  · apply tracks_bind below.block
    intro alternative other
    exact tracks_node closed known fun span here => ⟨here, tested, chosen, other⟩
  · exact tracks_node closed known fun span here => ⟨here, tested, chosen⟩

theorem tracks_function (closed : Span.Closed P) (below : Tracking P fuel) (known : P start) :
    Tracks P (Expr.Places P)
      (do
        advance
        expect .leftParen
        let names ← if ← eat .rightParen then pure [] else parameters fuel []
        let body ← block fuel
        return .function (← spanFrom start) none names body) := by
  apply tracks_bind tracks_advance
  intro _ _
  apply tracks_bind (tracks_expect closed .leftParen)
  intro _ _
  apply tracks_bind (tracks_eat .rightParen)
  intro empty _
  have finish (names : List String) (_ : True) : Tracks P (Expr.Places P)
      (do let body ← block fuel; return .function (← spanFrom start) none names body) :=
    tracks_bind below.block fun body inner => tracks_node closed known fun span here => ⟨here, inner⟩
  apply tracks_ite
  · exact tracks_bind (tracks_pure trivial) finish
  · exact tracks_bind (tracks_parameters closed fuel []) finish

theorem tracks_operand (closed : Span.Closed P) (below : Tracking P fuel) :
    Tracks P (Expr.Places P) (operand (fuel + 1)) := by
  apply tracks_bind tracks_get
  intro c places
  have start := places.here closed
  apply tracks_bind tracks_get
  intro d _
  have prefixed (operator : String) : Tracks P (Expr.Places P)
      (do advance; let right ← expression fuel unaryPrecedence; return .unary (← spanFrom c.here) operator right) := by
    apply tracks_bind tracks_advance
    intro _ _
    apply tracks_bind (below.expression unaryPrecedence)
    intro right inner
    exact tracks_node closed start fun span here => ⟨here, inner⟩
  cases d.peek? with
  | none => exact tracks_refuse closed _
  | some t =>
    cases t with
    | identifier name => exact tracks_leaf start
    | integer n => exact tracks_leaf start
    | float x => exact tracks_leaf start
    | string s => exact tracks_leaf start
    | trueWord => exact tracks_leaf start
    | falseWord => exact tracks_leaf start
    | bang => exact prefixed "!"
    | minus => exact prefixed "-"
    | leftParen =>
      apply tracks_bind tracks_advance
      intro _ _
      apply tracks_bind (below.expression 0)
      intro inner known
      apply tracks_bind (tracks_expect closed .rightParen)
      intro _ _
      exact tracks_node closed start fun span here => known.placed here
    | ifWord => exact tracks_conditional closed below start
    | fnWord => exact tracks_function closed below start
    | leftBracket =>
      apply tracks_bind tracks_advance
      intro _ _
      apply tracks_bind (below.list .rightBracket)
      intro elements inner
      exact tracks_node closed start fun span here => ⟨here, inner⟩
    | leftBrace =>
      apply tracks_bind tracks_advance
      intro _ _
      apply tracks_bind (below.pairs (show pairsPlaces P [] from trivial))
      intro entries inner
      exact tracks_node closed start fun span here => ⟨here, inner⟩
    | _ => exact tracks_refuse closed _

theorem tracks_listRest (closed : Span.Closed P) (below : Tracking P fuel) (close : Token) {read : List Expr}
    (known : listPlaces P read) : Tracks P (listPlaces P) (listRest (fuel + 1) close read) := by
  apply tracks_bind (below.expression 0)
  intro e here
  apply tracks_bind (tracks_eat .comma)
  intro more _
  have longer : listPlaces P (e :: read) := ⟨here, known⟩
  apply tracks_ite
  · exact below.listRest close longer
  · exact tracks_bind (tracks_expect closed close) fun _ _ => tracks_pure (listPlaces_reverse longer)

theorem tracks_pairs (closed : Span.Closed P) (below : Tracking P fuel) {read : List (Expr × Expr)}
    (known : pairsPlaces P read) : Tracks P (pairsPlaces P) (pairs (fuel + 1) read) := by
  apply tracks_bind (tracks_eat .rightBrace)
  intro empty _
  apply tracks_ite
  · exact tracks_pure (pairsPlaces_reverse known)
  apply tracks_bind (below.expression 0)
  intro key first
  apply tracks_bind (tracks_expect closed .colon)
  intro _ _
  apply tracks_bind (below.expression 0)
  intro value second
  apply tracks_bind (tracks_eat .comma)
  intro more _
  have longer : pairsPlaces P ((key, value) :: read) := ⟨first, second, known⟩
  apply tracks_ite
  · exact below.pairs longer
  · exact tracks_bind (tracks_expect closed .rightBrace) fun _ _ => tracks_pure (pairsPlaces_reverse longer)

-- By induction on the fuel: each function reads its parts with less.
theorem tracking (closed : Span.Closed P) (fuel : Nat) : Tracking P fuel := by
  induction fuel with
  | zero =>
    constructor
    all_goals intros; exact tracks_exhausted
  | succ fuel below =>
    refine ⟨tracks_statement closed below, fun m known => tracks_declaration closed below m known,
      tracks_bind (tracks_expect closed .leftBrace) fun _ _ => below.blockRest trivial,
      fun known => tracks_blockRest closed below known,
      fun level => tracks_bind below.operand fun left known => below.extend level known,
      fun level _ known => tracks_extend closed below level known, tracks_operand closed below, ?_,
      fun close _ known => tracks_listRest closed below close known, fun known => tracks_pairs closed below known⟩
    intro close
    apply tracks_bind (tracks_eat close)
    intro empty _
    exact tracks_ite (tracks_pure trivial) (below.listRest close trivial)

end Parsing

namespace Parsed

variable {P : Span → Prop}

-- All that is read has such places, and so has all that is wrong.
structure Places (P : Span → Prop) (p : Parsed) : Prop where
  statements : bodyPlaces P p.statements
  errors : ∀ e ∈ p.errors, P e.span

theorem collect_places (closed : Span.Closed P) (depth fuel : Nat) {statements : List Stmt} {errors : List ParseError}
    {c : Cursor} (read : bodyPlaces P statements) (wrong : ∀ e ∈ errors, P e.span) (places : c.Places P) :
    (collect depth fuel statements errors c).Places P := by
  have ended {statements : List Stmt} {errors : List ParseError} (read : bodyPlaces P statements)
      (wrong : ∀ e ∈ errors, P e.span) : (⟨statements.reverse, errors.reverse⟩ : Parsed).Places P :=
    ⟨bodyPlaces_reverse read, fun e present => wrong e (List.mem_reverse.mp present)⟩
  induction fuel generalizing statements errors c with
  | zero => exact ended read wrong
  | succ fuel ih =>
    rw [collect]
    split
    · exact ended read wrong
    · have tracked := (Parsing.tracking closed depth).statement c places
      cases result : Parsing.statement depth c with
      | ok s d =>
        rw [result] at tracked
        exact ih ⟨tracked.1, read⟩ wrong tracked.2
      | error h d =>
        cases h with
        | exhausted => exact ended read wrong
        | error e =>
          rw [result] at tracked
          exact ih read (List.forall_mem_cons.mpr ⟨tracked.1, wrong⟩) (Cursor.resync_places 0 d.position tracked.2)

theorem ofLexemes_places (closed : Span.Closed P) {lexemes : List Lexeme} (known : ∀ l ∈ lexemes, P l.span) :
    (ofLexemes lexemes).Places P :=
  collect_places closed _ _ trivial (by simp) ⟨known, closed.unknown⟩

end Parsed
end StackScript
