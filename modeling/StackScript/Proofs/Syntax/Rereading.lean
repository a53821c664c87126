import StackScript.Proofs.Session.Spacing
import StackScript.Proofs.Syntax.Plain

-- A plain program is read back from its text. Reading its tokens builds the same tree again, whatever stands behind them.
namespace StackScript

-- Some tokens that stand nowhere, behind some others.
def Cursor.bare (position : Nat) (ts : List Token) : Cursor := ⟨ts.map Token.lexeme, position, .unknown⟩

namespace Parsing

variable {α β : Type} {ts us vs : List Token} {x y z : Parsing α} {f : β → Parsing α}

-- Reading some tokens goes on as something else at those that are left.
def Leads (x : Parsing α) (ts : List Token) (y : Parsing α) (us : List Token) : Prop :=
  ∀ n, ∃ m, x (.bare n ts) = y (.bare m us)

theorem leads_refl : Leads x ts x ts := fun n => ⟨n, rfl⟩

theorem leads_trans (first : Leads x ts y us) (next : Leads y us z vs) : Leads x ts z vs := by
  intro n
  obtain ⟨m, here⟩ := first n
  obtain ⟨k, there⟩ := next m
  exact ⟨k, here.trans there⟩

theorem leads_bind {b b' : Parsing β} (first : Leads b ts b' us) (next : Leads (b' >>= f) us z vs) :
    Leads (b >>= f) ts z vs := by
  intro n
  obtain ⟨m, here⟩ := first n
  obtain ⟨k, there⟩ := next m
  refine ⟨k, ?_⟩
  rw [← there]
  simp only [bind, EStateM.bind, here]

theorem leads_next {b : Parsing β} {v : β} (first : Leads b ts (pure v) us) (next : Leads (f v) us z vs) :
    Leads (b >>= f) ts z vs :=
  leads_bind first next

theorem leads_advance {t : Token} : Leads advance (t :: us) (pure ()) us := fun n => ⟨n + 1, rfl⟩

theorem leads_eat (t : Token) : Leads (eat t) (t :: us) (pure true) us := by
  intro n
  refine ⟨n + 1, ?_⟩
  change (if some t = some t then (do advance; return true) else pure false : Parsing Bool) (.bare n (t :: us)) = _
  rw [if_pos rfl]
  rfl

theorem leads_expect (t : Token) : Leads (expect t) (t :: us) (pure ()) us := by
  intro n
  refine ⟨n + 1, ?_⟩
  change (if some t = some t then advance else refuse (.token t (some t))) (.bare n (t :: us)) = _
  rw [if_pos rfl]
  rfl

theorem leads_identifier (name : String) : Leads expectIdentifier (.identifier name :: us) (pure name) us :=
  fun n => ⟨n + 1, rfl⟩

theorem peek_bare (n : Nat) : (Cursor.bare n ts).peek? = ts.head? := by
  cases ts with
  | nil => rfl
  | cons t us => rfl

theorem leads_leave {t : Token} (other : ts.head? ≠ some t) : Leads (eat t) ts (pure false) ts := by
  intro n
  refine ⟨n, ?_⟩
  change (if (Cursor.bare n ts).peek? = some t then (do advance; return true) else pure false : Parsing Bool) _ = _
  rw [peek_bare, if_neg other]

theorem leads_spanFrom : Leads (spanFrom .unknown) ts (pure .unknown) ts := fun n => ⟨n, rfl⟩

def Stops (level : Nat) (ts : List Token) : Prop := ∀ t, ts.head? = some t → t.precedence ≤ level

theorem Stops.of_cons {t : Token} {level : Nat} (loose : t.precedence ≤ level) : Stops level (t :: ts) := by
  intro u here
  cases here
  exact loose

section
variable {fuel level : Nat} {left : Expr}

theorem leads_extend (positive : 0 < fuel) (stops : Stops level ts) : Leads (extend fuel level left) ts (pure left) ts := by
  obtain ⟨fuel, rfl⟩ := Nat.exists_eq_add_one.mpr positive
  intro n
  refine ⟨n, ?_⟩
  rw [extend]
  cases ts with
  | nil => rfl
  | cons t us =>
    change (if t.precedence ≤ level then pure left else _ : Parsing Expr) (.bare n (t :: us)) = _
    rw [if_pos (stops t rfl)]

theorem leads_call {arguments : List Expr} (nowhere : left.span = .unknown) (low : level < 6)
    (given : Leads (list fuel .rightParen) ts (pure arguments) us) :
    Leads (extend (fuel + 1) level left) (.leftParen :: ts) (extend fuel level (.call .unknown left arguments)) us := by
  have begun : Leads (extend (fuel + 1) level left) (.leftParen :: ts)
      (do
        advance
        let arguments ← list fuel .rightParen
        let span ← spanFrom left.span
        extend fuel level (.call span left arguments)) (.leftParen :: ts) := by
    intro n
    refine ⟨n, ?_⟩
    change (if 6 ≤ level then pure left else _ : Parsing Expr) (.bare n (.leftParen :: ts)) = _
    rw [if_neg (by omega)]
    rfl
  rw [nowhere] at begun
  apply leads_trans begun
  apply leads_next leads_advance
  apply leads_next given
  apply leads_next leads_spanFrom
  exact leads_refl

theorem leads_index {position : Expr} (nowhere : left.span = .unknown) (low : level < 7)
    (inner : Leads (expression fuel 0) ts (pure position) (.rightBracket :: us)) :
    Leads (extend (fuel + 1) level left) (.leftBracket :: ts) (extend fuel level (.index .unknown left position)) us := by
  have begun : Leads (extend (fuel + 1) level left) (.leftBracket :: ts)
      (do
        advance
        let position ← expression fuel 0
        expect .rightBracket
        let span ← spanFrom left.span
        extend fuel level (.index span left position)) (.leftBracket :: ts) := by
    intro n
    refine ⟨n, ?_⟩
    change (if 7 ≤ level then pure left else _ : Parsing Expr) (.bare n (.leftBracket :: ts)) = _
    rw [if_neg (by omega)]
    rfl
  rw [nowhere] at begun
  apply leads_trans begun
  apply leads_next leads_advance
  apply leads_next inner
  apply leads_next (leads_expect .rightBracket)
  apply leads_next leads_spanFrom
  exact leads_refl

theorem leads_binary {t : Token} {operator : String} {right : Expr} (nowhere : left.span = .unknown)
    (elsewhere : right.span = .unknown) (known : Token.between operator = some t) (tight : level < t.precedence)
    (second : Leads (expression fuel t.precedence) ts (pure right) us) :
    Leads (extend (fuel + 1) level left) (t :: ts) (extend fuel level (.binary .unknown operator left right)) us := by
  have begun : Leads (extend (fuel + 1) level left) (t :: ts)
      (do
        advance
        let right ← expression fuel t.precedence
        extend fuel level (.binary (left.span.merge right.span) operator left right)) (t :: ts) := by
    intro n
    refine ⟨n, ?_⟩
    change (if t.precedence ≤ level then pure left else _ : Parsing Expr) (.bare n (t :: ts)) = _
    rw [if_neg (by omega)]
    unfold Token.between at known
    split at known
    all_goals cases known
    all_goals rfl
  apply leads_trans begun
  apply leads_next leads_advance
  apply leads_next second
  rw [nowhere, elsewhere]
  exact leads_refl

end

-- How an expression begins that is no assignment.
def Opens : List Token → Prop
  | .identifier _ :: rest => rest.head? ≠ some .assign
  | .integer _ :: _ | .trueWord :: _ | .falseWord :: _ | .leftParen :: _ | .leftBracket :: _ | .leftBrace :: _ => True
  | _ => False

def Closes (t : Token) : Prop := t = .rightParen ∨ t = .rightBracket ∨ t = .rightBrace

theorem Closes.loose {t : Token} (closes : Closes t) (level : Nat) : t.precedence ≤ level := by
  rcases closes with rfl | rfl | rfl
  all_goals exact Nat.zero_le _

theorem Closes.not_comma {t : Token} (closes : Closes t) : t ≠ .comma := by
  rcases closes with rfl | rfl | rfl
  all_goals decide

theorem Opens.not_closed {t : Token} (opens : Opens ts) (closes : Closes t) : ts.head? ≠ some t := by
  intro here
  obtain ⟨rest, rfl⟩ := List.head?_eq_some_iff.mp here
  rcases closes with rfl | rfl | rfl
  all_goals exact opens

-- A plain expression is read as it is, and reading goes on with what it may be extended by.
structure Rereads (e : Expr) : Prop where
  opens : ∀ rest, rest.head? ≠ some .assign → Opens (e.tokens ++ rest)
  leads : ∀ fuel level rest, level < 6 → 8 * (e.tokens.length + rest.length) + 3 ≤ fuel →
    ∃ left, 8 * rest.length + 5 ≤ left ∧ Leads (expression fuel level) (e.tokens ++ rest) (extend left level e.unplaced) rest

section
variable {e right left callee target position : Expr} {rest : List Token} {fuel level : Nat}

theorem opens_pos (opens : ∀ rest, rest.head? ≠ some .assign → Opens (e.tokens ++ rest)) : 0 < e.tokens.length := by
  have here := opens [] (by simp)
  cases known : e.tokens with
  | nil => simp [known, Opens] at here
  | cons t ts => simp

theorem Rereads.whole (rereads : Rereads e) (low : level < 6) (enough : 8 * (e.tokens.length + rest.length) + 3 ≤ fuel)
    (stops : Stops level rest) : Leads (expression fuel level) (e.tokens ++ rest) (pure e.unplaced) rest := by
  obtain ⟨left, positive, leads⟩ := rereads.leads fuel level rest low enough
  apply leads_trans leads
  exact leads_extend (by omega) stops

theorem Rereads.of_operand (opens : ∀ rest, rest.head? ≠ some .assign → Opens (e.tokens ++ rest))
    (single : ∀ fuel rest, 8 * (e.tokens.length + rest.length) + 2 ≤ fuel →
      Leads (operand fuel) (e.tokens ++ rest) (pure e.unplaced) rest) : Rereads e := by
  refine ⟨opens, ?_⟩
  intro fuel level rest low enough
  have positive := opens_pos opens
  obtain ⟨fuel, rfl⟩ : ∃ k, fuel = k + 1 := ⟨fuel - 1, by omega⟩
  refine ⟨fuel, by omega, ?_⟩
  apply leads_next (single fuel rest (by omega))
  exact leads_refl

theorem leads_parentheses (between : Leads (expression fuel 0) ts (pure e.unplaced) (.rightParen :: us)) :
    Leads (operand (fuel + 1)) (.leftParen :: ts) (pure e.unplaced) us := by
  have begun : Leads (operand (fuel + 1)) (.leftParen :: ts)
      (do
        advance
        let inner ← expression fuel 0
        expect .rightParen
        return inner.placed (← spanFrom .unknown)) (.leftParen :: ts) := fun n => ⟨n, rfl⟩
  apply leads_trans begun
  apply leads_next leads_advance
  apply leads_next between
  apply leads_next (leads_expect .rightParen)
  apply leads_next leads_spanFrom
  rw [e.placed_unplaced]
  exact leads_refl

theorem leads_sign {operator : String} {t : Token} {right : Expr} (known : Token.ahead operator = some t)
    (operand : Leads (expression fuel unaryPrecedence) ts (pure right) us) :
    Leads (Parsing.operand (fuel + 1)) (t :: ts) (pure (.unary .unknown operator right)) us := by
  have begun : Leads (Parsing.operand (fuel + 1)) (t :: ts)
      (do
        advance
        let right ← expression fuel unaryPrecedence
        return .unary (← spanFrom .unknown) operator right) (t :: ts) := by
    unfold Token.ahead at known
    split at known
    all_goals cases known
    all_goals exact fun n => ⟨n, rfl⟩
  apply leads_trans begun
  apply leads_next leads_advance
  apply leads_next operand
  apply leads_next leads_spanFrom
  exact leads_refl

theorem Rereads.unary {s : Span} {operator : String} (known : (Token.ahead operator).isSome = true) (inner : Rereads right) :
    Rereads (.unary s operator right) := by
  obtain ⟨t, known⟩ := Option.isSome_iff_exists.mp known
  have tokens : (Expr.unary s operator right).tokens = .leftParen :: t :: (right.tokens ++ [.rightParen]) := by
    rw [Expr.tokens, known]
    rfl
  have size : (Expr.unary s operator right).tokens.length = right.tokens.length + 3 := by simp [tokens]
  refine .of_operand (fun _ _ => trivial) ?_
  intro fuel rest enough
  obtain ⟨fuel, rfl⟩ : ∃ k, fuel = k + 3 := ⟨fuel - 3, by omega⟩
  rw [tokens, List.cons_append, List.cons_append, List.append_assoc, List.singleton_append]
  apply leads_parentheses
  apply leads_next
  · apply leads_sign known
    exact inner.whole (by decide) (by rw [List.length_cons]; omega) (.of_cons (by decide))
  · exact leads_extend (by omega) (.of_cons (by decide))

theorem between_precedence {t : Token} {operator : String} (known : Token.between operator = some t) :
    0 < t.precedence ∧ t.precedence < 6 := by
  unfold Token.between at known
  split at known
  all_goals cases known
  all_goals decide

theorem Rereads.binary {s : Span} {operator : String} (known : (Token.between operator).isSome = true) (first : Rereads left)
    (second : Rereads right) : Rereads (.binary s operator left right) := by
  obtain ⟨t, known⟩ := Option.isSome_iff_exists.mp known
  obtain ⟨tight, low⟩ := between_precedence known
  have tokens : (Expr.binary s operator left right).tokens =
      .leftParen :: (left.tokens ++ t :: (right.tokens ++ [.rightParen])) := by
    rw [Expr.tokens, known]
    rfl
  refine .of_operand (fun _ _ => trivial) ?_
  intro fuel rest enough
  simp only [tokens, List.length_cons, List.length_append, List.length_nil] at enough
  obtain ⟨fuel, rfl⟩ : ∃ k, fuel = k + 1 := ⟨fuel - 1, by omega⟩
  rw [tokens, List.cons_append, List.append_assoc, List.cons_append, List.append_assoc, List.singleton_append]
  apply leads_parentheses
  obtain ⟨more, positive, leads⟩ := first.leads fuel 0 (t :: (right.tokens ++ .rightParen :: rest)) (by decide)
    (by simp only [List.length_cons, List.length_append]; omega)
  simp only [List.length_cons, List.length_append] at positive
  obtain ⟨more, rfl⟩ : ∃ k, more = k + 1 := ⟨more - 1, by omega⟩
  apply leads_trans leads
  apply leads_trans
  · apply leads_binary left.span_unplaced right.span_unplaced known tight
    exact second.whole low (by rw [List.length_cons]; omega) (.of_cons (Nat.zero_le _))
  · exact leads_extend (by omega) (.of_cons (by decide))

theorem Rereads.index {s : Span} (first : Rereads target) (second : Rereads position) :
    Rereads (.index s target position) := by
  refine .of_operand (fun _ _ => trivial) ?_
  intro fuel rest enough
  simp only [Expr.tokens, List.length_cons, List.length_append, List.length_nil] at enough
  obtain ⟨fuel, rfl⟩ : ∃ k, fuel = k + 1 := ⟨fuel - 1, by omega⟩
  rw [Expr.tokens, List.cons_append, List.append_assoc, List.cons_append, List.append_assoc, List.cons_append,
    List.singleton_append]
  apply leads_parentheses
  obtain ⟨more, positive, leads⟩ := first.leads fuel 0
    (.leftBracket :: (position.tokens ++ .rightBracket :: .rightParen :: rest)) (by decide)
    (by simp only [List.length_cons, List.length_append]; omega)
  simp only [List.length_cons, List.length_append] at positive
  obtain ⟨more, rfl⟩ : ∃ k, more = k + 1 := ⟨more - 1, by omega⟩
  apply leads_trans leads
  apply leads_trans
  · apply leads_index target.span_unplaced (by decide)
    exact second.whole (by decide) (by simp only [List.length_cons]; omega) (.of_cons (Nat.zero_le _))
  · exact leads_extend (by omega) (.of_cons (by decide))

theorem leads_listRest {close : Token} (closes : Closes close) : ∀ {es read : List Expr} {fuel : Nat} {rest : List Token},
    es ≠ [] → (∀ e ∈ es, Rereads e) → 8 * ((listTokens es).length + rest.length) + 12 ≤ fuel →
    Leads (listRest fuel close read) (listTokens es ++ close :: rest) (pure (read.reverse ++ listUnplaced es)) rest
  | [], _, _, _ => fun nonempty => absurd rfl nonempty
  | [e], read, fuel, rest => by
    intro _ rereads enough
    obtain ⟨fuel, rfl⟩ : ∃ k, fuel = k + 1 := ⟨fuel - 1, by omega⟩
    rw [listTokens] at enough ⊢
    apply leads_next
    · exact (rereads e List.mem_cons_self).whole (by decide) (by rw [List.length_cons]; omega) (.of_cons (closes.loose 0))
    apply leads_next (leads_leave (by simpa using closes.not_comma))
    apply leads_next (leads_expect close)
    rw [List.reverse_cons]
    exact leads_refl
  | e :: next :: others, read, fuel, rest => by
    intro _ rereads enough
    obtain ⟨fuel, rfl⟩ : ∃ k, fuel = k + 1 := ⟨fuel - 1, by omega⟩
    rw [listTokens] at enough ⊢
    rw [List.length_append, List.length_cons] at enough
    rw [List.append_assoc, List.cons_append]
    apply leads_next
    · exact (rereads e List.mem_cons_self).whole (by decide)
        (by simp only [List.length_cons, List.length_append]; omega) (.of_cons (by decide))
    apply leads_next (leads_eat .comma)
    have behind : Leads (listRest fuel close (e.unplaced :: read)) (listTokens (next :: others) ++ close :: rest)
        (pure ((e.unplaced :: read).reverse ++ listUnplaced (next :: others))) rest :=
      leads_listRest closes (List.cons_ne_nil _ _) (fun e here => rereads e (List.mem_cons_of_mem _ here)) (by omega)
    rw [List.reverse_cons, List.append_assoc] at behind
    exact behind

theorem listTokens_opens {es : List Expr} {close : Token} (closes : Closes close) (nonempty : es ≠ [])
    (rereads : ∀ e ∈ es, Rereads e) : Opens (listTokens es ++ close :: rest) := by
  match es with
  | [] => exact absurd rfl nonempty
  | [e] =>
    apply (rereads e List.mem_cons_self).opens
    rcases closes with rfl | rfl | rfl
    all_goals simp
  | e :: next :: others =>
    rw [listTokens, List.append_assoc]
    exact (rereads e List.mem_cons_self).opens _ (by simp)

theorem leads_list {close : Token} {es : List Expr} (closes : Closes close) (rereads : ∀ e ∈ es, Rereads e)
    (enough : 8 * ((listTokens es).length + rest.length) + 13 ≤ fuel) :
    Leads (list fuel close) (listTokens es ++ close :: rest) (pure (listUnplaced es)) rest := by
  obtain ⟨fuel, rfl⟩ : ∃ k, fuel = k + 1 := ⟨fuel - 1, by omega⟩
  by_cases empty : es = []
  · subst empty
    apply leads_next (leads_eat close)
    exact leads_refl
  · apply leads_next (leads_leave ((listTokens_opens closes empty rereads).not_closed closes))
    exact leads_listRest closes empty rereads (by omega)

theorem Rereads.array {s : Span} {elements : List Expr} (rereads : ∀ e ∈ elements, Rereads e) :
    Rereads (.array s elements) := by
  refine .of_operand (fun _ _ => trivial) ?_
  intro fuel rest enough
  simp only [Expr.tokens, List.length_cons, List.length_append, List.length_nil] at enough
  obtain ⟨fuel, rfl⟩ : ∃ k, fuel = k + 1 := ⟨fuel - 1, by omega⟩
  rw [Expr.tokens, List.cons_append, List.append_assoc, List.singleton_append]
  have begun {ts : List Token} : Leads (operand (fuel + 1)) (.leftBracket :: ts)
      (do
        advance
        let elements ← list fuel .rightBracket
        return .array (← spanFrom .unknown) elements) (.leftBracket :: ts) := fun n => ⟨n, rfl⟩
  apply leads_trans begun
  apply leads_next leads_advance
  apply leads_next (leads_list (.inr (.inl rfl)) rereads (by omega))
  apply leads_next leads_spanFrom
  exact leads_refl

theorem Rereads.call {s : Span} {arguments : List Expr} (first : Rereads callee) (rereads : ∀ e ∈ arguments, Rereads e) :
    Rereads (.call s callee arguments) := by
  constructor
  · intro rest _
    rw [Expr.tokens, List.append_assoc]
    exact first.opens _ (by simp)
  · intro fuel level rest low enough
    simp only [Expr.tokens, List.length_cons, List.length_append, List.length_nil] at enough
    rw [Expr.tokens, List.append_assoc, List.cons_append, List.append_assoc, List.singleton_append]
    obtain ⟨more, positive, leads⟩ := first.leads fuel level (.leftParen :: (listTokens arguments ++ .rightParen :: rest)) low
      (by simp only [List.length_cons, List.length_append]; omega)
    simp only [List.length_cons, List.length_append] at positive
    obtain ⟨more, rfl⟩ : ∃ k, more = k + 1 := ⟨more - 1, by omega⟩
    refine ⟨more, by omega, ?_⟩
    apply leads_trans leads
    apply leads_call callee.span_unplaced low
    exact leads_list (.inl rfl) rereads (by omega)

theorem leads_pairs : ∀ {entries read : List (Expr × Expr)} {fuel : Nat} {rest : List Token},
    (∀ p ∈ entries, Rereads p.1 ∧ Rereads p.2) → 8 * ((pairTokens entries).length + rest.length) + 12 ≤ fuel →
    Leads (pairs fuel read) (pairTokens entries ++ .rightBrace :: rest) (pure (read.reverse ++ pairsUnplaced entries)) rest
  | [], read, fuel, rest => by
    intro _ enough
    obtain ⟨fuel, rfl⟩ : ∃ k, fuel = k + 1 := ⟨fuel - 1, by omega⟩
    apply leads_next (leads_eat .rightBrace)
    rw [pairsUnplaced, List.append_nil]
    exact leads_refl
  | [(key, value)], read, fuel, rest => by
    intro rereads enough
    obtain ⟨fuel, rfl⟩ : ∃ k, fuel = k + 1 := ⟨fuel - 1, by omega⟩
    obtain ⟨first, second⟩ := rereads _ List.mem_cons_self
    rw [pairTokens] at enough ⊢
    rw [List.length_append, List.length_cons] at enough
    rw [List.append_assoc, List.cons_append]
    apply leads_next (leads_leave ((first.opens _ (by simp)).not_closed (.inr (.inr rfl))))
    apply leads_next
    · exact first.whole (by decide) (by simp only [List.length_cons, List.length_append]; omega) (.of_cons (by decide))
    apply leads_next (leads_expect .colon)
    apply leads_next
    · exact second.whole (by decide) (by simp only [List.length_cons]; omega) (.of_cons (by decide))
    apply leads_next (leads_leave (by simp))
    apply leads_next (leads_expect .rightBrace)
    rw [List.reverse_cons]
    exact leads_refl
  | (key, value) :: next :: others, read, fuel, rest => by
    intro rereads enough
    obtain ⟨fuel, rfl⟩ : ∃ k, fuel = k + 1 := ⟨fuel - 1, by omega⟩
    obtain ⟨first, second⟩ := rereads _ List.mem_cons_self
    rw [pairTokens] at enough ⊢
    simp only [List.length_append, List.length_cons] at enough
    rw [List.append_assoc, List.cons_append, List.append_assoc, List.cons_append]
    apply leads_next (leads_leave ((first.opens _ (by simp)).not_closed (.inr (.inr rfl))))
    apply leads_next
    · exact first.whole (by decide) (by simp only [List.length_cons, List.length_append]; omega) (.of_cons (by decide))
    apply leads_next (leads_expect .colon)
    apply leads_next
    · exact second.whole (by decide) (by simp only [List.length_cons, List.length_append]; omega) (.of_cons (by decide))
    apply leads_next (leads_eat .comma)
    have behind : Leads (pairs fuel ((key.unplaced, value.unplaced) :: read))
        (pairTokens (next :: others) ++ .rightBrace :: rest)
        (pure (((key.unplaced, value.unplaced) :: read).reverse ++ pairsUnplaced (next :: others))) rest :=
      leads_pairs (fun p here => rereads p (List.mem_cons_of_mem _ here)) (by omega)
    rw [List.reverse_cons, List.append_assoc] at behind
    exact behind

theorem Rereads.hash {s : Span} {entries : List (Expr × Expr)} (rereads : ∀ p ∈ entries, Rereads p.1 ∧ Rereads p.2) :
    Rereads (.hash s entries) := by
  refine .of_operand (fun _ _ => trivial) ?_
  intro fuel rest enough
  simp only [Expr.tokens, List.length_cons, List.length_append, List.length_nil] at enough
  obtain ⟨fuel, rfl⟩ : ∃ k, fuel = k + 1 := ⟨fuel - 1, by omega⟩
  rw [Expr.tokens, List.cons_append, List.append_assoc, List.singleton_append]
  have begun {ts : List Token} : Leads (operand (fuel + 1)) (.leftBrace :: ts)
      (do
        advance
        let entries ← pairs fuel []
        return .hash (← spanFrom .unknown) entries) (.leftBrace :: ts) := fun n => ⟨n, rfl⟩
  apply leads_trans begun
  apply leads_next leads_advance
  apply leads_next (leads_pairs rereads (by omega))
  apply leads_next leads_spanFrom
  exact leads_refl

theorem Rereads.of_token {t : Token} (tokens : e.tokens = [t])
    (opens : ∀ rest, rest.head? ≠ some .assign → Opens (t :: rest))
    (made : ∀ fuel rest, Leads (operand (fuel + 1)) (t :: rest) (pure e.unplaced) rest) : Rereads e := by
  apply Rereads.of_operand
  · rw [tokens]
    exact opens
  · intro fuel rest enough
    obtain ⟨fuel, rfl⟩ : ∃ k, fuel = k + 1 := ⟨fuel - 1, by omega⟩
    rw [tokens]
    exact made fuel rest

end

mutual

theorem Expr.rereads : ∀ {e : Expr}, e.plain = true → Rereads e
  | .identifier _ name => fun _ => .of_token rfl (fun _ other => other) fun _ _ n => ⟨n + 1, rfl⟩
  | .integer _ n => fun _ => .of_token rfl (fun _ _ => trivial) fun _ _ n => ⟨n + 1, rfl⟩
  | .boolean _ true | .boolean _ false => fun _ => .of_token rfl (fun _ _ => trivial) fun _ _ n => ⟨n + 1, rfl⟩
  | .unary s operator right => by
    intro plain
    rw [Expr.plain, Bool.and_eq_true] at plain
    exact .unary plain.1 (Expr.rereads plain.2)
  | .binary s operator left right => by
    intro plain
    rw [Expr.plain, Bool.and_eq_true, Bool.and_eq_true] at plain
    exact .binary plain.1.1 (Expr.rereads plain.1.2) (Expr.rereads plain.2)
  | .call s callee arguments => by
    intro plain
    rw [Expr.plain, Bool.and_eq_true] at plain
    exact .call (Expr.rereads plain.1) (list_rereads plain.2)
  | .array s elements => fun plain => .array (list_rereads plain)
  | .hash s entries => fun plain => .hash (pairs_reread plain)
  | .index s target position => by
    intro plain
    rw [Expr.plain, Bool.and_eq_true] at plain
    exact .index (Expr.rereads plain.1) (Expr.rereads plain.2)
  | .float .. | .string .. | .conditional .. | .function .. => by
    intro plain
    simp [Expr.plain] at plain

theorem list_rereads : ∀ {es : List Expr}, listPlain es = true → ∀ e ∈ es, Rereads e
  | [] => by simp
  | e :: rest => by
    intro plain
    rw [listPlain, Bool.and_eq_true] at plain
    exact List.forall_mem_cons.mpr ⟨Expr.rereads plain.1, list_rereads plain.2⟩

theorem pairs_reread : ∀ {entries : List (Expr × Expr)}, pairsPlain entries = true →
    ∀ p ∈ entries, Rereads p.1 ∧ Rereads p.2
  | [] => by simp
  | (key, value) :: rest => by
    intro plain
    rw [pairsPlain, Bool.and_eq_true, Bool.and_eq_true] at plain
    exact List.forall_mem_cons.mpr ⟨⟨Expr.rereads plain.1.1, Expr.rereads plain.1.2⟩, pairs_reread plain.2⟩

end

section
variable {fuel : Nat} {rest : List Token}

theorem leads_value {value : Expr} (made : Span → Expr → Stmt) (rereads : Rereads value)
    (enough : 8 * (value.tokens.length + rest.length) + 11 ≤ fuel) :
    Leads (do let e ← expression fuel 0; let span ← spanFrom .unknown; let _ ← eat .semicolon; return made span e)
      (value.tokens ++ .semicolon :: rest) (pure (made .unknown value.unplaced)) rest := by
  apply leads_next
  · exact rereads.whole (by decide) (by rw [List.length_cons]; omega) (.of_cons (by decide))
  apply leads_next leads_spanFrom
  apply leads_next (leads_eat .semicolon)
  exact leads_refl

-- Only a function takes the name of its declaration.
theorem named_plain {e : Expr} (plain : e.plain = true) (name : String) : e.unplaced.named name = e.unplaced := by
  cases e with
  | function => simp [Expr.plain] at plain
  | conditional s condition consequence alternative => cases alternative <;> rfl
  | _ => rfl

theorem Stmt.rereads {s : Stmt} (plain : s.plain = true) (enough : 8 * (s.tokens.length + rest.length) + 3 ≤ fuel) :
    Leads (statement fuel) (s.tokens ++ rest) (pure s.unplaced) rest := by
  cases s with
  | declare s mutability name value =>
    rw [Stmt.plain, Bool.and_eq_true] at plain
    simp only [Stmt.tokens, List.length_cons, List.length_append, List.length_nil] at enough
    obtain ⟨fuel, rfl⟩ : ∃ k, fuel = k + 2 := ⟨fuel - 2, by omega⟩
    rw [Stmt.tokens, List.cons_append, List.cons_append, List.cons_append, List.append_assoc, List.singleton_append]
    have begun {ts : List Token} : Leads (statement (fuel + 2)) (mutability.token :: ts)
        (do
          advance
          let name ← expectIdentifier
          expect .assign
          let value ← expression fuel 0
          let span ← spanFrom .unknown
          let _ ← eat .semicolon
          return .declare span mutability name (value.named name)) (mutability.token :: ts) := by
      cases mutability with
      | fixed => exact fun n => ⟨n, rfl⟩
      | assignable => exact fun n => ⟨n, rfl⟩
    apply leads_trans begun
    apply leads_next leads_advance
    apply leads_next (leads_identifier name)
    apply leads_next (leads_expect .assign)
    rw [Stmt.unplaced, ← named_plain plain.2 name]
    exact leads_value (fun span e => .declare span mutability name (e.named name)) (Expr.rereads plain.2) (by omega)
  | assign s name value =>
    rw [Stmt.plain, Bool.and_eq_true] at plain
    simp only [Stmt.tokens, List.length_cons, List.length_append, List.length_nil] at enough
    obtain ⟨fuel, rfl⟩ : ∃ k, fuel = k + 1 := ⟨fuel - 1, by omega⟩
    rw [Stmt.tokens, List.cons_append, List.cons_append, List.append_assoc, List.singleton_append]
    have begun {ts : List Token} : Leads (statement (fuel + 1)) (.identifier name :: .assign :: ts)
        (do
          advance
          advance
          let value ← expression fuel 0
          let span ← spanFrom .unknown
          let _ ← eat .semicolon
          return .assign span name value) (.identifier name :: .assign :: ts) := fun n => ⟨n, rfl⟩
    apply leads_trans begun
    apply leads_next leads_advance
    apply leads_next leads_advance
    exact leads_value (fun span e => .assign span name e) (Expr.rereads plain.2) (by omega)
  | returns s value =>
    simp only [Stmt.tokens, List.length_cons, List.length_append, List.length_nil] at enough
    obtain ⟨fuel, rfl⟩ : ∃ k, fuel = k + 1 := ⟨fuel - 1, by omega⟩
    rw [Stmt.tokens, List.cons_append, List.append_assoc, List.singleton_append]
    have begun {ts : List Token} : Leads (statement (fuel + 1)) (.returnWord :: ts)
        (do
          advance
          let value ← expression fuel 0
          let span ← spanFrom .unknown
          let _ ← eat .semicolon
          return .returns span value) (.returnWord :: ts) := fun n => ⟨n, rfl⟩
    apply leads_trans begun
    apply leads_next leads_advance
    exact leads_value .returns (Expr.rereads plain) (by omega)
  | expression => cases plain

-- A statement is an expression unless its first words say otherwise.
theorem leads_statement {t : Token} {ts : List Token} (bare : t ≠ .letWord ∧ t ≠ .varWord ∧ t ≠ .returnWord)
    (other : ∀ name, t = .identifier name → ts.head? ≠ some .assign) : Leads (statement (fuel + 1)) (t :: ts)
      (do
        let value ← expression fuel 0
        let span ← spanFrom .unknown
        let _ ← eat .semicolon
        return .expression span value) (t :: ts) := by
  intro n
  refine ⟨n, ?_⟩
  cases t with
  | identifier name =>
    cases ts with
    | nil => rfl
    | cons u ts =>
      cases u with
      | assign => exact absurd rfl (other name rfl)
      | _ => rfl
  | letWord => exact absurd rfl bare.1
  | varWord => exact absurd rfl bare.2.1
  | returnWord => exact absurd rfl bare.2.2
  | _ => rfl

theorem Opens.statement {ts : List Token} (opens : Opens ts) : Leads (statement (fuel + 1)) ts
    (do
      let value ← expression fuel 0
      let span ← spanFrom .unknown
      let _ ← eat .semicolon
      return .expression span value) ts := by
  cases ts with
  | nil => exact opens.elim
  | cons t ts =>
    apply leads_statement
    · refine ⟨?_, ?_, ?_⟩
      all_goals
        rintro rfl
        exact opens
    · rintro name rfl
      exact opens

-- An expression may stand at the end without a semicolon.
theorem leads_last {value : Expr} (plain : value.plain = true) (enough : 8 * value.tokens.length + 4 ≤ fuel) :
    Leads (statement fuel) value.tokens (pure (.expression .unknown value.unplaced)) [] := by
  obtain ⟨fuel, rfl⟩ : ∃ k, fuel = k + 1 := ⟨fuel - 1, by omega⟩
  have rereads := Expr.rereads plain
  have opens := rereads.opens [] (by simp)
  rw [List.append_nil] at opens
  apply leads_trans opens.statement
  apply leads_next
  · have whole : Leads (expression fuel 0) (value.tokens ++ []) (pure value.unplaced) [] :=
      rereads.whole (by decide) (by rw [List.length_nil]; omega) (by simp [Stops])
    rw [List.append_nil] at whole
    exact whole
  apply leads_next leads_spanFrom
  apply leads_next (leads_leave (by simp))
  exact leads_refl

end

end Parsing

theorem leads_first {depth : Nat} {s : Stmt} {rest : List Stmt} (plain : bodyPlain (s :: rest) = true)
    (deep : 8 * ((s :: rest).flatMap Stmt.tokens).length + 4 ≤ depth) : bodyPlain rest = true ∧ 0 < s.tokens.length ∧
      Parsing.Leads (Parsing.statement depth) ((s :: rest).flatMap Stmt.tokens) (pure s.unplaced)
        (rest.flatMap Stmt.tokens) := by
  rw [List.flatMap_cons] at deep ⊢
  rcases bodyPlain_cons plain with ⟨span, value, rfl, last, rfl⟩ | ⟨first, others⟩
  · rw [List.flatMap_nil, List.append_nil] at deep ⊢
    exact ⟨rfl, Parsing.opens_pos (Parsing.Expr.rereads last).opens, Parsing.leads_last last deep⟩
  · refine ⟨others, ?_, Parsing.Stmt.rereads first (by rw [List.length_append] at deep; omega)⟩
    cases s with
    | expression => cases first
    | _ => simp [Stmt.tokens]

theorem Parsed.collect_plain {depth fuel : Nat} {body : List Stmt} (plain : bodyPlain body = true)
    (deep : 8 * (body.flatMap Stmt.tokens).length + 4 ≤ depth) (enough : (body.flatMap Stmt.tokens).length < fuel) :
    ∀ statements n, collect depth fuel statements [] (.bare n (body.flatMap Stmt.tokens)) =
      ⟨statements.reverse ++ bodyUnplaced body, []⟩ := by
  induction body generalizing fuel with
  | nil =>
    intro statements n
    obtain ⟨fuel, rfl⟩ : ∃ k, fuel = k + 1 := ⟨fuel - 1, by omega⟩
    rw [bodyUnplaced, List.append_nil]
    rfl
  | cons s rest ih =>
    intro statements n
    obtain ⟨fuel, rfl⟩ : ∃ k, fuel = k + 1 := ⟨fuel - 1, by omega⟩
    obtain ⟨others, nonempty, leads⟩ := leads_first plain deep
    obtain ⟨m, leads⟩ := leads n
    have more := List.length_pos_iff.mp nonempty
    rw [collect, if_neg (by simp [Cursor.bare, maxErrors, more]), leads]
    rw [List.flatMap_cons, List.length_append] at deep enough
    rw [bodyUnplaced, ← List.singleton_append, ← List.append_assoc, ← List.reverse_cons]
    exact ih others (by omega) (by omega) (s.unplaced :: statements) m

theorem Program.ofTokens_plain {p : Program} (plain : p.plain = true) : ofTokens p.tokens = .ok p.unplaced := by
  have collected : Parsed.ofLexemes (p.tokens.map Token.lexeme) = ⟨bodyUnplaced p.statements, []⟩ :=
    Parsed.collect_plain plain (by rw [Parsed.depthFor, List.length_map]; exact Nat.add_le_add_left (by decide) _)
      (by rw [List.length_map]; exact Nat.lt_succ_self _) [] 0
  rw [ofTokens, ofLexemes, collected]
  rfl

theorem Program.tokensOf_text {p : Program} (plain : p.plain = true) : tokensOf p.text = .ok p.tokens := by
  obtain ⟨found, scanned, same⟩ := (Program.text_passes plain).finish rfl 0 #[]
  rw [tokensOf, lexemes, scanned]
  exact congrArg Except.ok same

-- The text of a plain program is read as the same program, up to places and the text that it remembers.
theorem text_read_back (p : Program) (plain : p.plain = true) :
    ∃ q, Program.ofSource p.text = .ok q ∧ q.unplaced = p.unplaced := by
  have same := Program.ofSource_unplaced (Program.tokensOf_text plain)
  rw [Program.ofTokens_plain plain] at same
  cases read : Program.ofSource p.text with
  | error e =>
    rw [read] at same
    cases same
  | ok q =>
    rw [read] at same
    exact ⟨q, rfl, Except.ok.inj same⟩

-- let f = (-g(x)[0]); f(1)({(a == (!b)):[]})
def Program.nested : Program :=
  ⟨[.declare .unknown .fixed "f" (.unary .unknown "-" (.index .unknown
      (.call .unknown (.identifier .unknown "g") [.identifier .unknown "x", .boolean .unknown true]) (.integer .unknown 0))),
    .expression .unknown (.call .unknown (.call .unknown (.identifier .unknown "f") [.integer .unknown 1])
      [.hash .unknown [(.binary .unknown "==" (.identifier .unknown "a") (.unary .unknown "!" (.identifier .unknown "b")),
        .array .unknown [])]])], none⟩

theorem text_read_back_nested : Program.nested.plain = true ∧
    ∃ q, Program.ofSource Program.nested.text = .ok q ∧ q.unplaced = Program.nested.unplaced := by
  have plain : Program.nested.plain = true := by decide +kernel
  exact ⟨plain, text_read_back _ plain⟩

end StackScript
