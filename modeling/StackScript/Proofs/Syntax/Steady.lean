import StackScript.Proofs.Syntax.Ahead

-- Every function of the reader keeps to the rules: it does the same with more fuel, and with other lexemes behind.
namespace StackScript.Parsing

variable {c : Cursor} {fuel more : Nat}

theorem local_parameters (enough : fuel ≤ more) (names : List String) :
    Local 1 0 c (parameters fuel names) (parameters more names) := by
  induction fuel generalizing more names c with
  | zero => exact local_exhausted
  | succ fuel ih =>
    obtain ⟨more, rfl⟩ := Nat.exists_eq_add_one_of_ne_zero (Nat.ne_zero_of_lt enough)
    refine local_begin local_expectIdentifier fun name d _ => ?_
    refine local_bind (local_eat rfl) fun onward e _ => ?_
    cases onward with
    | true => exact (ih (Nat.le_of_succ_le_succ enough) _).any
    | false => exact local_bind (local_expect _) fun _ _ _ => local_pure

-- What each function does with some fuel, it does with more.
structure Steady (fuel more : Nat) : Prop where
  declared (c : Cursor) {l : Lexeme} {rest : List Lexeme} (next : c.rest = l :: rest) (start : Span)
    (mutability : Mutability) : Local 1 1 c (declared fuel start mutability) (declared more start mutability)
  sentence (c : Cursor) : Local 1 0 c (sentence fuel) (sentence more)
  block (c : Cursor) : Local 1 0 c (block fuel) (block more)
  blockRest (c : Cursor) (read : List Stmt) : Local 1 0 c (blockRest fuel read) (blockRest more read)
  expression (c : Cursor) (level : Nat) : Local 1 c.named c (expression fuel level) (expression more level)
  extend (c : Cursor) (level : Nat) (left : Expr) : Local 0 1 c (extend fuel level left) (extend more level left)
  operand (c : Cursor) : Local 1 c.named c (operand fuel) (operand more)
  list (c : Cursor) (close : Token) : Local 1 0 c (list fuel close) (list more close)
  listRest (c : Cursor) (close : Token) (read : List Expr) :
    Local 1 0 c (listRest fuel close read) (listRest more close read)
  pairs (c : Cursor) (read : List (Expr × Expr)) : Local 1 0 c (pairs fuel read) (pairs more read)

theorem Steady.statement (below : Steady fuel more) (c : Cursor) : Local 1 0 c (statement fuel) (statement more) := by
  rw [statement_closed, statement_closed]
  refine local_begin (below.sentence c) fun s d _ => ?_
  exact local_bind (local_eat rfl) fun _ _ _ => local_pure

theorem local_declared (below : Steady fuel more) {l : Lexeme} {rest : List Lexeme} (next : c.rest = l :: rest)
    (start : Span) (mutability : Mutability) :
    Local 1 1 c (declared (fuel + 1) start mutability) (declared (more + 1) start mutability) := by
  apply local_pass next
  refine local_bind local_expectIdentifier fun name d _ => ?_
  refine local_bind (local_expect .assign) fun _ e _ => ?_
  exact local_bind (below.expression e 0) fun _ _ _ => local_node

theorem local_valued (below : Steady fuel more) (start : Span) (made : Span → Expr → Stmt) : Local 1 c.named c
    (do
      let value ← expression fuel 0
      return made (← spanFrom start) value)
    (do
      let value ← expression more 0
      return made (← spanFrom start) value) :=
  local_then (below.expression c 0) (fun _ _ _ => local_node) (Nat.le_refl _) (Nat.le_add_left _ 1)

theorem sentence_plain {name : String} {place : Span} {rest : List Lexeme} (n : Nat) (p : Span)
    (plain : rest.head?.map Lexeme.token ≠ some .assign) :
    sentence (fuel + 1) ⟨⟨.identifier name, place⟩ :: rest, n, p⟩ =
      (do
        let value ← expression fuel 0
        return Stmt.expression (← spanFrom place) value) ⟨⟨.identifier name, place⟩ :: rest, n, p⟩ := by
  cases rest with
  | nil => rfl
  | cons l rest =>
    obtain ⟨t, place'⟩ := l
    cases t with
    | assign => exact absurd rfl plain
    | _ => rfl

theorem local_sentence (below : Steady fuel more) : Local 1 0 c (sentence (fuel + 1)) (sentence (more + 1)) := by
  obtain ⟨rest, position, previous⟩ := c
  cases rest with
  | nil => exact local_ended rfl (local_valued below previous.after .expression) rfl fun _ => rfl
  | cons l rest =>
    obtain ⟨t, place⟩ := l
    cases t with
    | letWord =>
      exact local_taken rfl (local_weaken (below.declared _ rfl place .fixed) (by omega) (by omega)) rfl fun _ _ => rfl
    | varWord =>
      exact local_taken rfl (local_weaken (below.declared _ rfl place .assignable) (by omega) (by omega)) rfl fun _ _ => rfl
    | returnWord =>
      have reads := local_pass (c := ⟨⟨.returnWord, place⟩ :: rest, position, previous⟩) rfl
        (local_valued below place .returns)
      exact local_taken rfl (local_weaken reads (by omega) (by omega)) rfl fun _ _ => rfl
    | identifier name =>
      by_cases assigned : rest.head?.map Lexeme.token = some .assign
      · obtain ⟨⟨_, place'⟩, first, rfl⟩ := Option.map_eq_some_iff.mp assigned
        obtain ⟨rest, rfl⟩ := List.head?_eq_some_iff.mp first
        have reads := local_pass (c := ⟨⟨.identifier name, place⟩ :: ⟨.assign, place'⟩ :: rest, position, previous⟩) rfl
          (local_pass rfl (local_valued below place (Stmt.assign · name)))
        refine local_weaken (local_same reads rfl ?_) (by omega) (Nat.zero_le _)
        rintro (_ | ⟨l, _ | ⟨l', ls⟩⟩) d further rest' passes known
        · simp at known
        · simp at known
        · obtain ⟨rfl, passed⟩ := List.cons.inj passes.rest
          obtain ⟨rfl, -⟩ := List.cons.inj passed
          rfl
      · have reads : Local 1 1 ⟨⟨.identifier name, place⟩ :: rest, position, previous⟩ _ _ :=
          local_weaken (local_valued below place .expression) (Nat.le_refl 1) (Nat.le_succ 1)
        refine local_weaken (local_same reads (sentence_plain position previous assigned) ?_) (Nat.le_refl 1) (Nat.zero_le 1)
        rintro (_ | ⟨l, ls⟩) d further rest' passes known
        · simp at known
        · obtain ⟨rfl, rfl⟩ := List.cons.inj passes.rest
          have instead : Instead d.rest rest' := known.elim And.right fun same => .inl same.2
          apply sentence_plain
          intro there
          rcases instead.head ls there with same | loose
          · exact assigned same
          · cases loose
    | _ => exact local_taken rfl (local_valued below place .expression) rfl fun _ _ => rfl

theorem local_block (below : Steady fuel more) : Local 1 0 c (block (fuel + 1)) (block (more + 1)) :=
  local_begin (local_expect .leftBrace) fun _ d _ => (below.blockRest d []).any

theorem local_blockRest (below : Steady fuel more) (read : List Stmt) :
    Local 1 0 c (blockRest (fuel + 1) read) (blockRest (more + 1) read) := by
  have onward : Local 1 0 c (do let s ← statement fuel; blockRest fuel (s :: read))
      (do let s ← statement more; blockRest more (s :: read)) :=
    local_begin (below.statement c) fun s d _ => (below.blockRest d (s :: read)).any
  obtain ⟨rest, position, previous⟩ := c
  cases rest with
  | nil => exact local_ended rfl (local_refuse .openBlock) rfl fun _ => rfl
  | cons l rest =>
    obtain ⟨t, place⟩ := l
    cases t with
    | rightBrace =>
      have reads : Local 0 0 _ (pure read.reverse) (pure read.reverse) := local_pure (c := ⟨rest, position + 1, place⟩)
      exact local_taken rfl (local_weaken (local_pass rfl reads) (by omega) (by omega)) rfl fun _ _ => rfl
    | _ => exact local_taken rfl onward rfl fun _ _ => rfl

theorem local_expression (below : Steady fuel more) (level : Nat) :
    Local 1 c.named c (expression (fuel + 1) level) (expression (more + 1) level) :=
  local_then (below.operand c) (fun left d _ => below.extend d level left) (Nat.le_refl _) c.named_le

theorem local_continued (below : Steady fuel more) (level : Nat) (left : Expr) {t : Token} {place : Span}
    {rest : List Lexeme} (next : c.rest = ⟨t, place⟩ :: rest) :
    Local 1 1 c (continued fuel level left t) (continued more level left t) := by
  cases t with
  | leftParen =>
    apply local_pass next
    refine local_bind (below.list _ .rightParen) fun arguments d _ => ?_
    exact local_bind local_spanFrom fun span e _ => (below.extend e level _).any
  | leftBracket =>
    apply local_pass next
    refine local_bind (below.expression _ 0) fun position d _ => ?_
    refine local_bind (local_expect .rightBracket) fun _ e _ => ?_
    exact local_bind local_spanFrom fun span f _ => (below.extend f level _).any
  | _ =>
    apply local_pass next
    exact local_bind (below.expression _ _) fun right d _ => (below.extend d level _).any

theorem local_extend (below : Steady fuel more) (level : Nat) (left : Expr) :
    Local 0 1 c (extend (fuel + 1) level left) (extend (more + 1) level left) := by
  have stops (loose : ∀ t ∈ c.peek?, t.precedence ≤ level) :
      Local 0 1 c (extend (fuel + 1) level left) (extend (more + 1) level left) := by
    unfold Local
    rw [extend_stops loose]
    refine ⟨[], .nil, Nat.le_refl _, ?_⟩
    intro further rest instead
    apply extend_stops
    intro t there
    rcases instead.head [] there with same | ends
    · exact loose t same
    · exact t.loose_precedence ends level
  obtain ⟨rest, position, previous⟩ := c
  cases rest with
  | nil => exact stops (by rintro t ⟨⟩)
  | cons l rest =>
    obtain ⟨t, place⟩ := l
    by_cases loose : t.precedence ≤ level
    · exact stops (by rintro _ ⟨⟩; exact loose)
    · have reads : Local 1 1 ⟨⟨t, place⟩ :: rest, position, previous⟩ (extend (fuel + 1) level left)
          (extend (more + 1) level left) :=
        local_taken rfl (local_continued below level left rfl) (extend_continued position previous loose)
          fun _ n => extend_continued n previous loose
      exact local_weaken reads (Nat.zero_le 1) (Nat.le_refl 1)

section
variable {l : Lexeme} {rest : List Lexeme}

theorem local_unary (below : Steady fuel more) (next : c.rest = l :: rest) (start : Span) (operator : String) :
    Local 1 1 c (unary fuel start operator) (unary more start operator) := by
  apply local_pass next
  exact local_bind (below.expression _ _) fun _ _ _ => local_node

theorem local_parenthesised (below : Steady fuel more) (next : c.rest = l :: rest) (start : Span) :
    Local 1 1 c (parenthesised fuel start) (parenthesised more start) := by
  apply local_pass next
  refine local_bind (below.expression _ 0) fun inner d _ => ?_
  exact local_bind (local_expect _) fun _ _ _ => local_node

theorem local_conditional (below : Steady fuel more) (next : c.rest = l :: rest) (start : Span) :
    Local 1 1 c (conditional fuel start) (conditional more start) := by
  apply local_pass next
  refine local_bind (local_expect _) fun _ d _ => ?_
  refine local_bind (below.expression d 0) fun condition e _ => ?_
  refine local_bind (local_expect _) fun _ f _ => ?_
  refine local_bind (below.block f) fun consequence g _ => ?_
  refine local_bind (local_eat rfl) fun further h _ => ?_
  cases further with
  | true => exact local_bind (below.block h) fun _ _ _ => local_node
  | false => exact local_node

theorem local_function (enough : fuel ≤ more) (below : Steady fuel more) (next : c.rest = l :: rest) (start : Span) :
    Local 1 1 c (function fuel start) (function more start) := by
  apply local_pass next
  refine local_bind (local_expect _) fun _ d _ => ?_
  have finish (names : List String) (e : Cursor) : Local 0 0 e
      (do let body ← block fuel; return Expr.function (← spanFrom start) none names body)
      (do let body ← block more; return Expr.function (← spanFrom start) none names body) :=
    local_bind (below.block e) fun _ _ _ => local_node
  have listed := local_unless (t := .rightParen) (finish []) (local_begin (local_parameters (c := d) enough [])
    fun names e _ => finish names e)
  exact listed.any

theorem local_array (below : Steady fuel more) (next : c.rest = l :: rest) (start : Span) :
    Local 1 1 c (array fuel start) (array more start) := by
  apply local_pass next
  exact local_bind (below.list _ _) fun _ _ _ => local_node

theorem local_hash (below : Steady fuel more) (next : c.rest = l :: rest) (start : Span) :
    Local 1 1 c (hash fuel start) (hash more start) := by
  apply local_pass next
  exact local_bind (below.pairs _ _) fun _ _ _ => local_node

theorem local_leaf (next : c.rest = l :: rest) (e : Expr) : Local 1 2 c (leaf e) (leaf e) :=
  local_pass next local_pure

end

theorem local_begun (enough : fuel ≤ more) (below : Steady fuel more) {t : Token} {place : Span} {rest : List Lexeme}
    (next : c.rest = ⟨t, place⟩ :: rest) (start : Span) : Local 1 c.named c (begun fuel start t) (begun more start t) := by
  have plain {x y : Parsing Expr} {n : Nat} (nameless : c.named = 0) (reads : Local 1 n c x y) : Local 1 c.named c x y :=
    local_weaken reads (Nat.le_refl 1) (nameless ▸ Nat.zero_le n)
  have named : c.named = Cursor.named ⟨⟨t, place⟩ :: rest, 0, .unknown⟩ := by rw [Cursor.named, next]; rfl
  cases t with
  | identifier => exact local_weaken (local_leaf next _) (Nat.le_refl 1) c.named_le
  | integer | float | string | trueWord | falseWord => exact plain named (local_leaf next _)
  | bang | minus => exact plain named (local_unary below next start _)
  | leftParen => exact plain named (local_parenthesised below next start)
  | ifWord => exact plain named (local_conditional below next start)
  | fnWord => exact plain named (local_function enough below next start)
  | leftBracket => exact plain named (local_array below next start)
  | leftBrace => exact plain named (local_hash below next start)
  | _ => exact plain named (local_refuse _)

theorem local_operand (enough : fuel ≤ more) (below : Steady fuel more) :
    Local 1 c.named c (operand (fuel + 1)) (operand (more + 1)) := by
  obtain ⟨rest, position, previous⟩ := c
  cases rest with
  | nil => exact local_ended rfl (local_refuse (.expression none)) rfl fun _ => rfl
  | cons l rest =>
    obtain ⟨t, place⟩ := l
    exact local_taken rfl (local_begun enough below rfl place) (operand_begun position previous)
      fun _ n => operand_begun n previous

theorem local_list (below : Steady fuel more) (close : Token) :
    Local 1 0 c (list (fuel + 1) close) (list (more + 1) close) :=
  local_unless (fun _ => local_pure) (below.listRest c close [])

theorem local_listRest (below : Steady fuel more) (close : Token) (read : List Expr) :
    Local 1 0 c (listRest (fuel + 1) close read) (listRest (more + 1) close read) := by
  refine local_begin (below.expression c 0) fun e d _ => ?_
  refine local_bind (local_eat rfl) fun onward f _ => ?_
  cases onward with
  | true => exact (below.listRest f close (e :: read)).any
  | false => exact local_bind (local_expect close) fun _ _ _ => local_pure

theorem local_pairs (below : Steady fuel more) (read : List (Expr × Expr)) :
    Local 1 0 c (pairs (fuel + 1) read) (pairs (more + 1) read) := by
  apply local_unless fun _ => local_pure
  refine local_begin (below.expression c 0) fun key d _ => ?_
  refine local_bind (local_expect .colon) fun _ e _ => ?_
  refine local_bind (below.expression e 0) fun value f _ => ?_
  refine local_bind (local_eat rfl) fun onward g _ => ?_
  cases onward with
  | true => exact (below.pairs g ((key, value) :: read)).any
  | false => exact local_bind (local_expect .rightBrace) fun _ _ _ => local_pure

-- By induction on the fuel: each function reads its parts with less.
theorem steady (enough : fuel ≤ more) : Steady fuel more := by
  induction fuel generalizing more with
  | zero =>
    constructor
    all_goals intros; exact local_exhausted
  | succ fuel ih =>
    obtain ⟨more, rfl⟩ := Nat.exists_eq_add_one_of_ne_zero (Nat.ne_zero_of_lt enough)
    have enough := Nat.le_of_succ_le_succ enough
    have below := ih enough
    exact ⟨fun _ _ _ next start mutability => local_declared below next start mutability, fun _ => local_sentence below,
      fun _ => local_block below, fun _ => local_blockRest below, fun _ => local_expression below,
      fun _ => local_extend below, fun _ => local_operand enough below, fun _ => local_list below,
      fun _ => local_listRest below, fun _ => local_pairs below⟩

end StackScript.Parsing
