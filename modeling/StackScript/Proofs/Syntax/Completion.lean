import StackScript.Proofs.Syntax.Steady
import StackScript.Proofs.Syntax.Unplaced

-- Whatever is missing where reading fails can be made up: what was passed is the beginning of something that can be read.
namespace StackScript

theorem Loose.nil : Loose [] := by
  rintro l ⟨⟩

theorem Loose.cons {l : Lexeme} {ls : List Lexeme} (here : l.token.loose = true) : Loose (l :: ls) := by
  rintro _ ⟨⟩
  exact here

theorem Loose.append {us rest : List Lexeme} (loose : Loose us) (behind : Loose rest) : Loose (us ++ rest) := by
  cases us with
  | nil => exact behind
  | cons l us => exact .cons (loose l rfl)

def Lexeme.made (ts : List Token) : List Lexeme := ts.map Token.lexeme

namespace Parsing

variable {α β : Type} {c d : Cursor} {x y : Parsing α} {us vs : List Lexeme}

def Takes (y : Parsing α) (c : Cursor) (rest : List Lexeme) : Prop := ∃ a d, y c = .ok a d ∧ d.rest = rest

theorem takes_bind {b : Parsing β} {f : β → Parsing α} {v : β} {rest : List Lexeme} (first : b c = .ok v d)
    (next : Takes (f v) d rest) : Takes (b >>= f) c rest := by
  obtain ⟨a, e, run, left⟩ := next
  refine ⟨a, e, ?_, left⟩
  simp only [bind, EStateM.bind, first]
  exact run

-- Some lexemes are all that `y` needs, in front of anything that continues nothing.
def Fills (us : List Lexeme) (y : Parsing α) : Prop :=
  ∀ c rest, Loose rest → c.rest = us ++ rest → Takes y c rest

theorem fills_pure {a : α} : Fills [] (pure a) := fun c _ _ next => ⟨a, c, rfl, next⟩

theorem fills_node {start : Span} {made : Span → α} : Fills [] (do return made (← spanFrom start)) :=
  fun c _ _ next => ⟨_, c, rfl, next⟩

theorem fills_bind {b : Parsing β} {f : β → Parsing α} (first : Fills us b) (next : ∀ v, Fills vs (f v))
    (loose : Loose vs) : Fills (us ++ vs) (b >>= f) := by
  intro c rest behind here
  obtain ⟨v, d, run, left⟩ := first c (vs ++ rest) (loose.append behind) (by rw [here, List.append_assoc])
  exact takes_bind run (next v d rest behind left)

theorem fills_pass {l : Lexeme} (others : Fills us y) : Fills (l :: us) (do advance; y) :=
  fun _ rest behind here => takes_bind (advance_cons here) (others _ rest behind rfl)

section
variable {t : Token} {place : Span} {rest : List Lexeme}

theorem peek_here (here : c.rest = ⟨t, place⟩ :: rest) : c.peek? = some t := by
  rw [Cursor.peek?, here]
  rfl

theorem expect_cons (here : c.rest = ⟨t, place⟩ :: rest) : expect t c = .ok () ⟨rest, c.position + 1, place⟩ := by
  rw [expect_eq, if_pos (peek_here here)]
  exact advance_cons here

theorem eat_cons (here : c.rest = ⟨t, place⟩ :: rest) : eat t c = .ok true ⟨rest, c.position + 1, place⟩ := by
  obtain ⟨_, position, previous⟩ := c
  cases here
  rw [eat_eq]
  exact if_pos rfl

theorem eat_ok (t : Token) (c : Cursor) : ∃ found d, eat t c = .ok found d := by
  rw [eat_eq]
  split <;> exact ⟨_, _, rfl⟩

theorem eat_loose (inner : t.loose = false) (loose : Loose c.rest) : eat t c = .ok false c := by
  rw [eat_eq, if_neg]
  intro here
  obtain ⟨place, rest, next⟩ := peek_cons here
  rw [next] at loose
  have : t.loose = true := loose _ rfl
  rw [inner] at this
  cases this

theorem fills_expect (others : Fills us y) : Fills (⟨t, .unknown⟩ :: us) (do expect t; y) :=
  fun _ rest behind here => takes_bind (expect_cons here) (others _ rest behind rfl)

theorem fills_taken (others : Fills us x) : Fills (⟨t, .unknown⟩ :: us) (do if ← eat t then x else y) :=
  fun _ rest behind here => takes_bind (eat_cons here) (others _ rest behind rfl)

theorem fills_left (inner : t.loose = false) (loose : Loose us) (others : Fills us y) :
    Fills us (do if ← eat t then x else y) := by
  intro c rest behind here
  refine takes_bind (eat_loose inner ?_) (others c rest behind here)
  rw [here]
  exact loose.append behind

theorem fills_name {name : String} {f : String → Parsing α} (others : Fills us (f name)) :
    Fills (⟨.identifier name, .unknown⟩ :: us) (expectIdentifier >>= f) := by
  intro c rest behind here
  obtain ⟨_, position, previous⟩ := c
  cases here
  exact takes_bind (d := ⟨us ++ rest, position + 1, .unknown⟩) rfl (others _ rest behind rfl)

end

theorem fills_parameters (fuel : Nat) (names : List String) :
    Fills (Lexeme.made [.identifier "x", .rightParen]) (parameters (fuel + 1) names) :=
  fills_name (fills_left rfl (.cons rfl) (fills_expect fills_pure))

section
variable (fuel level : Nat)

theorem fills_extend (left : Expr) : Fills [] (extend (fuel + 1) level left) := by
  intro c rest behind here
  refine ⟨left, c, extend_stops ?_, here⟩
  intro t next
  obtain ⟨place, rest', next⟩ := peek_cons next
  rw [List.nil_append] at here
  rw [next] at here
  exact Token.loose_precedence (behind ⟨t, place⟩ (by rw [← here]; rfl)) level

theorem fills_operand : Fills (Lexeme.made [.identifier "x"]) (operand (fuel + 1)) := by
  intro c rest behind here
  obtain ⟨_, position, previous⟩ := c
  cases here
  exact ⟨_, _, rfl, rfl⟩

theorem fills_expression : Fills (Lexeme.made [.identifier "x"]) (expression (fuel + 2) level) :=
  fills_bind (fills_operand fuel) (fills_extend fuel level) .nil

theorem fills_blockRest (read : List Stmt) : Fills (Lexeme.made [.rightBrace]) (blockRest (fuel + 1) read) := by
  intro c rest behind here
  obtain ⟨_, position, previous⟩ := c
  cases here
  exact ⟨_, _, rfl, rfl⟩

theorem fills_block : Fills (Lexeme.made [.leftBrace, .rightBrace]) (block (fuel + 2)) :=
  fills_expect (fills_blockRest fuel [])

theorem fills_list (close : Token) : Fills (Lexeme.made [close]) (list (fuel + 1) close) := fills_taken fills_pure

theorem fills_listEnd {close : Token} (ends : close.loose = true) (more : Parsing (List Expr)) (read : List Expr) :
    Fills (Lexeme.made [close]) (do if ← eat .comma then more else expect close; return read) :=
  fills_left rfl (.cons ends) (fills_expect fills_pure)

theorem fills_listRest {close : Token} (ends : close.loose = true) (read : List Expr) :
    Fills (Lexeme.made [.identifier "x", close]) (listRest (fuel + 3) close read) :=
  fills_bind (fills_expression fuel 0) (fun _ => fills_listEnd ends _ _) (.cons ends)

theorem fills_pairs (read : List (Expr × Expr)) : Fills (Lexeme.made [.rightBrace]) (pairs (fuel + 1) read) :=
  fills_taken fills_pure

theorem fills_sentence : Fills (Lexeme.made [.identifier "x"]) (sentence (fuel + 3)) := by
  intro c rest behind here
  obtain ⟨_, position, previous⟩ := c
  cases here
  unfold Takes
  have plain : rest.head?.map Lexeme.token ≠ some .assign := by
    intro there
    obtain ⟨l, first, assigned⟩ := Option.map_eq_some_iff.mp there
    have loose := behind l first
    rw [assigned] at loose
    cases loose
  change ∃ a d, sentence (fuel + 3) ⟨⟨.identifier "x", .unknown⟩ :: rest, position, previous⟩ = .ok a d ∧ d.rest = rest
  rw [sentence_plain position previous plain]
  exact fills_bind (fills_expression fuel 0) (fun _ => fills_node) .nil _ rest behind rfl

theorem fills_statement : Fills (Lexeme.made [.identifier "x"]) (statement (fuel + 3)) := by
  rw [statement_closed]
  refine fills_bind (fills_sentence fuel) (fun s => ?_) .nil
  intro c rest behind here
  exact takes_bind (eat_loose rfl (by rwa [here])) ⟨s, c, rfl, here⟩

end

-- Where `x` fails behind some lexemes, something can come instead with which `y` succeeds.
def Completes (c : Cursor) (x y : Parsing α) : Prop :=
  match x c with
  | .error (.error _) d => ∃ ls, c.Passes ls d ∧
      (ls ≠ [] → ∃ us, ∀ rest, Loose rest → Takes y (c.facing 0 (ls ++ (us ++ rest))) rest)
  | _ => True

theorem completes_refuse {problem : Misread} : Completes c (refuse problem) y := ⟨[], .nil, fun nonempty => absurd rfl nonempty⟩

section
variable {b b' : Parsing β} {f f' : β → Parsing α} {v : β} {least early : Nat}

-- The first part succeeds: it does so again in front of what the second one goes on with, and in front of what may stand
-- there instead of all of it.
theorem completes_step {ls : List Lexeme} (run : b c = .ok v d) (passes : c.Passes ls d)
    (next : Completes d (f v) (f' v)) (fills : Fills us (f' v))
    (same : ∀ rest, rest.head? = d.rest.head? → b' (c.facing 0 (ls ++ rest)) = .ok v (d.facing 0 rest))
    (made : ∀ rest, Loose rest → b' (c.facing 0 (ls ++ (us ++ rest))) = .ok v (d.facing 0 (us ++ rest))) :
    Completes c (b >>= f) (b' >>= f') := by
  unfold Completes at next ⊢
  simp only [bind, EStateM.bind, run]
  split at next
  · obtain ⟨ms, passes', more⟩ := next
    refine ⟨ls ++ ms, passes.trans passes', fun _ => ?_⟩
    cases ms with
    | nil =>
      refine ⟨us, fun rest behind => ?_⟩
      rw [List.append_nil]
      exact takes_bind (made rest behind) (fills _ rest behind rfl)
    | cons m ms =>
      obtain ⟨ws, takes⟩ := more (List.cons_ne_nil _ _)
      refine ⟨ws, fun rest behind => ?_⟩
      rw [List.append_assoc]
      refine takes_bind (same _ ?_) (takes rest behind)
      rw [passes'.rest]
      rfl
  · trivial

theorem completes_onward (run : b c = .ok v d) (reads : Local least early c b b') (next : Completes d (f v) (f' v))
    (fills : Fills us (f' v)) (loose : Loose us) : Completes c (b >>= f) (b' >>= f') := by
  obtain ⟨ls, passes, -, again⟩ := local_ok reads run
  exact completes_step run passes next fills (fun rest same => again 0 rest (.inl same))
    fun rest behind => again 0 _ (.inr (loose.append behind))

theorem completes_bind (reads : Local least early c b b') (first : Completes c b b')
    (next : ∀ v d, b c = .ok v d → Completes d (f v) (f' v)) (fills : ∀ v, Fills us (f' v)) (loose : Loose us) :
    Completes c (b >>= f) (b' >>= f') := by
  cases run : b c with
  | ok v d => exact completes_onward run reads (next v d run) (fills v) loose
  | error h d =>
    unfold Completes at first ⊢
    simp only [bind, EStateM.bind, run] at first ⊢
    cases h with
    | exhausted => trivial
    | error e =>
      obtain ⟨ls, passes, more⟩ := first
      refine ⟨ls, passes, fun nonempty => ?_⟩
      obtain ⟨vs, takes⟩ := more nonempty
      refine ⟨vs ++ us, fun rest behind => ?_⟩
      rw [List.append_assoc]
      obtain ⟨v, d', run', left⟩ := takes (us ++ rest) (loose.append behind)
      exact takes_bind run' (fills v d' rest behind left)

end

theorem completes_pass {l : Lexeme} {rest : List Lexeme} (next : c.rest = l :: rest)
    (others : Completes ⟨rest, c.position + 1, l.span⟩ x y) (fills : Fills us y) :
    Completes c (do advance; x) (do advance; y) := by
  obtain ⟨_, position, previous⟩ := c
  cases next
  exact completes_step rfl (.next .nil) others fills (fun _ _ => rfl) fun _ _ => rfl

theorem completes_never {b : Parsing β} {f : β → Parsing α} {e : ParseError} (fails : b c = .error (.error e) c) :
    Completes c (b >>= f) y := by
  unfold Completes
  simp only [bind, EStateM.bind, fails]
  exact ⟨[], .nil, fun nonempty => absurd rfl nonempty⟩

theorem completes_expect {t : Token} (others : ∀ d, Completes d x y) (fills : Fills us y) :
    Completes c (do expect t; x) (do expect t; y) := by
  by_cases here : c.peek? = some t
  · obtain ⟨place, rest, next⟩ := peek_cons here
    obtain ⟨_, position, previous⟩ := c
    cases next
    exact completes_step (expect_cons rfl) (.next .nil) (others _) fills (fun _ _ => expect_cons rfl)
      fun _ _ => expect_cons rfl
  · refine completes_never (e := c.error (.token t c.peek?)) ?_
    rw [expect_eq, if_neg here]
    rfl

theorem completes_name {f f' : String → Parsing α} (others : ∀ name d, Completes d (f name) (f' name))
    (fills : ∀ name, Fills us (f' name)) : Completes c (expectIdentifier >>= f) (expectIdentifier >>= f') := by
  obtain ⟨rest, position, previous⟩ := c
  cases rest with
  | nil => exact completes_never rfl
  | cons l rest =>
    obtain ⟨t, place⟩ := l
    cases t with
    | identifier name =>
      exact completes_step rfl (.next .nil) (others name ⟨rest, position + 1, place⟩) (fills name) (fun _ _ => rfl)
        fun _ _ => rfl
    | _ => exact completes_never rfl

section
variable {x' y' : Parsing α}

-- Both do what they do for the same reason, given by lexemes that are passed before reading fails.
theorem completes_same (reads : Completes c x' y') (here : x c = x' c)
    (there : ∀ ls d e rest, c.Passes ls d → ls ≠ [] → x' c = .error (.error e) d →
      y (c.facing 0 (ls ++ rest)) = y' (c.facing 0 (ls ++ rest))) : Completes c x y := by
  unfold Completes at reads ⊢
  rw [here]
  split at reads
  · rename_i e d failed
    obtain ⟨ls, passes, more⟩ := reads
    refine ⟨ls, passes, fun nonempty => ?_⟩
    obtain ⟨us, takes⟩ := more nonempty
    refine ⟨us, fun rest behind => ?_⟩
    rw [Takes, there ls d e (us ++ rest) passes nonempty failed]
    exact takes rest behind
  · trivial

theorem completes_taken {l : Lexeme} {rest : List Lexeme} (next : c.rest = l :: rest) (reads : Completes c x' y')
    (here : x c = x' c) (there : ∀ rest' n, y ⟨l :: rest', n, c.previous⟩ = y' ⟨l :: rest', n, c.previous⟩) :
    Completes c x y := by
  refine completes_same reads here ?_
  rintro (_ | ⟨m, ls⟩) d e rest' passes nonempty -
  · exact absurd rfl nonempty
  · obtain ⟨rfl, -⟩ := List.cons.inj (next.symm.trans passes.rest)
    exact there _ _

theorem completes_ended {least early : Nat} (next : c.rest = []) (reads : Local least early c x y) : Completes c x y := by
  unfold Completes
  split
  · rename_i e d failed
    obtain ⟨ls, passes, -⟩ := local_error reads failed
    refine ⟨ls, passes, fun nonempty => ?_⟩
    have left := passes.rest
    rw [next] at left
    exact absurd (List.append_eq_nil_iff.mp left.symm).1 nonempty
  · trivial

theorem completes_unless {t : Token} (yes : ∀ d, Completes d x x') (fills : Fills us x') (no : Completes c y y') :
    Completes c (do if ← eat t then x else y) (do if ← eat t then x' else y') := by
  have left (x y : Parsing α) {d : Cursor} (here : d.peek? ≠ some t) : (do if ← eat t then x else y) d = y d := by
    simp only [bind, EStateM.bind, eat_eq, if_neg here]
    rfl
  by_cases here : c.peek? = some t
  · obtain ⟨place, rest, next⟩ := peek_cons here
    obtain ⟨_, position, previous⟩ := c
    cases next
    exact completes_step (eat_cons rfl) (.next .nil) (yes _) fills (fun _ _ => eat_cons rfl) fun _ _ => eat_cons rfl
  · refine completes_same no (left x y here) ?_
    rintro (_ | ⟨m, ls⟩) d e rest' passes nonempty -
    · exact absurd rfl nonempty
    · apply left
      rw [Cursor.peek?, passes.rest] at here
      exact here

end

theorem completes_eat {t : Token} {x' y' : Parsing α} (inner : t.loose = false) (yes : ∀ d, Completes d x x')
    (fills : Fills us x') (loose : Loose us) (no : ∀ d, Completes d y y') (fills' : Fills vs y') (loose' : Loose vs) :
    Completes c (do if ← eat t then x else y) (do if ← eat t then x' else y') := by
  by_cases here : c.peek? = some t
  · exact completes_onward (by rw [eat_eq, if_pos here]) (local_eat inner) (yes _) fills loose
  · exact completes_onward (by rw [eat_eq, if_neg here]) (local_eat inner) (no _) fills' loose'

variable {fuel more : Nat}

theorem completes_parameters (enough : fuel < more) (names : List String) :
    Completes c (parameters fuel names) (parameters more names) := by
  induction fuel generalizing more names c with
  | zero => trivial
  | succ fuel ih =>
    obtain ⟨more, rfl⟩ := Nat.exists_eq_add_of_le' (Nat.le_trans (Nat.le_add_left 2 fuel) enough)
    refine completes_name (fun name d => ?_) (fun _ => fills_left rfl (.cons rfl) (fills_expect fills_pure))
    exact completes_eat rfl (fun _ => ih (Nat.lt_of_succ_lt_succ enough) _) (fills_parameters more _) (.cons rfl)
      (fun _ => completes_expect (fun _ => trivial) fills_pure) (fills_expect fills_pure) (.cons rfl)

-- What each function fails to read with some fuel can be completed.
structure Completing (fuel more : Nat) : Prop where
  declared (c : Cursor) {l : Lexeme} {rest : List Lexeme} (next : c.rest = l :: rest) (start : Span)
    (mutability : Mutability) : Completes c (declared fuel start mutability) (declared more start mutability)
  sentence (c : Cursor) : Completes c (sentence fuel) (sentence more)
  block (c : Cursor) : Completes c (block fuel) (block more)
  blockRest (c : Cursor) (read : List Stmt) : Completes c (blockRest fuel read) (blockRest more read)
  expression (c : Cursor) (level : Nat) : Completes c (expression fuel level) (expression more level)
  extend (c : Cursor) (level : Nat) (left : Expr) : Completes c (extend fuel level left) (extend more level left)
  operand (c : Cursor) : Completes c (operand fuel) (operand more)
  list (c : Cursor) {close : Token} (ends : close.loose = true) : Completes c (list fuel close) (list more close)
  listRest (c : Cursor) {close : Token} (ends : close.loose = true) (read : List Expr) :
    Completes c (listRest fuel close read) (listRest more close read)
  pairs (c : Cursor) (read : List (Expr × Expr)) : Completes c (pairs fuel read) (pairs more read)

theorem completes_node {start : Span} {made : Span → α} : Completes c (do return made (← spanFrom start)) y := trivial

theorem completes_valued (below : Completing fuel (more + 2)) (steady : Steady fuel (more + 2)) (made : Expr → Span → α)
    (start : Span) : Completes c
    (do
      let value ← expression fuel 0
      return made value (← spanFrom start))
    (do
      let value ← expression (more + 2) 0
      return made value (← spanFrom start)) :=
  completes_bind (steady.expression c 0) (below.expression c 0) (fun _ _ _ => completes_node) (fun _ => fills_node) .nil

theorem fills_valued (more : Nat) (made : Expr → Span → α) (start : Span) : Fills (Lexeme.made [.identifier "x"])
    (do
      let value ← expression (more + 2) 0
      return made value (← spanFrom start)) :=
  fills_bind (fills_expression more 0) (fun _ => fills_node) .nil

theorem completes_declared (below : Completing fuel (more + 2)) (steady : Steady fuel (more + 2)) {l : Lexeme}
    {rest : List Lexeme} (next : c.rest = l :: rest) (start : Span) (mutability : Mutability) :
    Completes c (declared (fuel + 1) start mutability) (declared (more + 3) start mutability) := by
  have fills (name : String) := fills_valued more (fun value span => Stmt.declare span mutability name (value.named name)) start
  refine completes_pass next ?_ (fills_name (fills_expect (fills "x")))
  refine completes_name (fun name d => ?_) fun name => fills_expect (fills name)
  exact completes_expect (fun d => completes_valued below steady _ start) (fills name)

theorem completes_sentence (below : Completing fuel (more + 2)) (steady : Steady fuel (more + 2)) :
    Completes c (sentence (fuel + 1)) (sentence (more + 3)) := by
  have valued (c : Cursor) (made : Expr → Span → Stmt) (start : Span) := completes_valued (c := c) below steady made start
  obtain ⟨rest, position, previous⟩ := c
  cases rest with
  | nil => exact completes_ended rfl (local_sentence steady)
  | cons l rest =>
    obtain ⟨t, place⟩ := l
    cases t with
    | letWord => exact completes_taken rfl (below.declared _ rfl place .fixed) rfl fun _ _ => rfl
    | varWord => exact completes_taken rfl (below.declared _ rfl place .assignable) rfl fun _ _ => rfl
    | returnWord =>
      exact completes_taken rfl (completes_pass (c := ⟨⟨.returnWord, place⟩ :: rest, position, previous⟩) rfl
        (valued _ (fun value span => .returns span value) place) (fills_valued more _ place)) rfl fun _ _ => rfl
    | identifier name =>
      by_cases assigned : rest.head?.map Lexeme.token = some .assign
      · obtain ⟨⟨_, place'⟩, first, rfl⟩ := Option.map_eq_some_iff.mp assigned
        obtain ⟨rest, rfl⟩ := List.head?_eq_some_iff.mp first
        have reads := completes_pass (c := ⟨⟨.identifier name, place⟩ :: ⟨.assign, place'⟩ :: rest, position, previous⟩) rfl
          (completes_pass rfl (valued _ (fun value span => .assign span name value) place) (fills_valued more _ place))
          (fills_pass (l := ⟨.assign, .unknown⟩) (fills_valued more _ place))
        have early := local_pass (c := ⟨⟨.identifier name, place⟩ :: ⟨.assign, place'⟩ :: rest, position, previous⟩) rfl
          (local_pass rfl (local_valued steady place (Stmt.assign · name)))
        refine completes_same reads rfl ?_
        rintro ls d e rest' passes - failed
        have enough := local_early early failed passes
        obtain _ | ⟨l, _ | ⟨l', ls⟩⟩ := ls
        · simp at enough
        · simp at enough
        · obtain ⟨rfl, passed⟩ := List.cons.inj passes.rest
          obtain ⟨rfl, -⟩ := List.cons.inj passed
          rfl
      · have early := local_valued (c := ⟨⟨.identifier name, place⟩ :: rest, position, previous⟩) steady place .expression
        refine completes_same (valued _ (fun value span => .expression span value) place)
          (sentence_plain position previous assigned) ?_
        rintro ls d e rest' passes - failed
        have enough : 2 ≤ ls.length := local_early early failed passes
        obtain _ | ⟨l, _ | ⟨l', ls⟩⟩ := ls
        · simp at enough
        · simp at enough
        · obtain ⟨rfl, rfl⟩ := List.cons.inj passes.rest
          exact sentence_plain _ _ assigned
    | _ => exact completes_taken rfl (valued _ (fun value span => .expression span value) place) rfl fun _ _ => rfl

theorem completes_statement (below : Completing fuel (more + 3)) (steady : Steady fuel (more + 3)) :
    Completes c (statement fuel) (statement (more + 3)) := by
  rw [statement_closed, statement_closed]
  refine completes_bind (steady.sentence c) (below.sentence c) (fun s d _ => ?_) (fun s => ?_) .nil
  · obtain ⟨found, e, run⟩ := eat_ok .semicolon d
    exact completes_onward run (local_eat rfl) trivial fills_pure .nil
  · intro d rest behind here
    exact takes_bind (eat_loose rfl (by rwa [here])) ⟨s, d, rfl, here⟩

theorem completes_block (below : Completing fuel (more + 1)) :
    Completes c (block (fuel + 1)) (block (more + 2)) :=
  completes_expect (fun d => below.blockRest d []) (fills_blockRest more [])

theorem completes_blockRest (below : Completing fuel (more + 3)) (steady : Steady fuel (more + 3)) (read : List Stmt) :
    Completes c (blockRest (fuel + 1) read) (blockRest (more + 4) read) := by
  have onward : Completes c (do let s ← statement fuel; blockRest fuel (s :: read))
      (do let s ← statement (more + 3); blockRest (more + 3) (s :: read)) :=
    completes_bind (steady.statement c) (completes_statement below steady) (fun s d _ => below.blockRest d _)
      (fun s => fills_blockRest _ _) (.cons rfl)
  obtain ⟨rest, position, previous⟩ := c
  cases rest with
  | nil => exact completes_ended rfl (local_blockRest steady read)
  | cons l rest =>
    obtain ⟨t, place⟩ := l
    cases t with
    | rightBrace => trivial
    | _ => exact completes_taken rfl onward rfl fun _ _ => rfl

theorem completes_expression (below : Completing fuel (more + 1)) (steady : Steady fuel (more + 1)) (level : Nat) :
    Completes c (expression (fuel + 1) level) (expression (more + 2) level) :=
  completes_bind (steady.operand c) (below.operand c) (fun left d _ => below.extend d level left)
    (fills_extend more level) .nil

theorem completes_continued (below : Completing fuel (more + 2)) (steady : Steady fuel (more + 2)) (level : Nat)
    (left : Expr) {t : Token} {place : Span} {rest : List Lexeme} (next : c.rest = ⟨t, place⟩ :: rest) :
    Completes c (continued fuel level left t) (continued (more + 2) level left t) := by
  have spanned {d : Cursor} (made : Span → Expr) : Completes d
      (do let span ← spanFrom left.span; extend fuel level (made span))
      (do let span ← spanFrom left.span; extend (more + 2) level (made span)) :=
    completes_onward rfl local_spanFrom (below.extend d level _) (fills_extend (more + 1) level _) .nil
  have stops (made : Span → Expr) : Fills []
      (do let span ← spanFrom left.span; extend (more + 2) level (made span)) :=
    fun c rest behind here => takes_bind rfl (fills_extend (more + 1) level _ c rest behind here)
  cases t with
  | leftParen =>
    refine completes_pass next ?_ (fills_bind (fills_list (more + 1) .rightParen) (fun _ => stops _) .nil)
    exact completes_bind (steady.list _ _) (below.list _ rfl) (fun _ _ _ => spanned _) (fun _ => stops _) .nil
  | leftBracket =>
    refine completes_pass next ?_ (fills_bind (fills_expression more 0) (fun _ => fills_expect (stops _)) (.cons rfl))
    exact completes_bind (steady.expression _ 0) (below.expression _ 0)
      (fun _ _ _ => completes_expect (fun _ => spanned _) (stops _)) (fun _ => fills_expect (stops _)) (.cons rfl)
  | _ =>
    refine completes_pass next ?_ (fills_bind (fills_expression more _) (fun _ => fills_extend (more + 1) level _) .nil)
    exact completes_bind (steady.expression _ _) (below.expression _ _) (fun _ d _ => below.extend d level _)
      (fun _ => fills_extend (more + 1) level _) .nil

theorem completes_extend (below : Completing fuel (more + 2)) (steady : Steady fuel (more + 2)) (level : Nat)
    (left : Expr) : Completes c (extend (fuel + 1) level left) (extend (more + 3) level left) := by
  have stops (loose : ∀ t ∈ c.peek?, t.precedence ≤ level) :
      Completes c (extend (fuel + 1) level left) (extend (more + 3) level left) := by
    unfold Completes
    rw [extend_stops loose]
    trivial
  obtain ⟨rest, position, previous⟩ := c
  cases rest with
  | nil => exact stops (by rintro t ⟨⟩)
  | cons l rest =>
    obtain ⟨t, place⟩ := l
    by_cases loose : t.precedence ≤ level
    · exact stops (by rintro _ ⟨⟩; exact loose)
    · exact completes_taken rfl (completes_continued below steady level left rfl)
        (extend_continued position previous loose) fun _ n => extend_continued n previous loose

section
variable {l : Lexeme} {rest : List Lexeme}

theorem completes_unary (below : Completing fuel (more + 2)) (steady : Steady fuel (more + 2)) (next : c.rest = l :: rest)
    (start : Span) (operator : String) : Completes c (unary fuel start operator) (unary (more + 2) start operator) :=
  completes_pass next (completes_bind (steady.expression _ _) (below.expression _ _) (fun _ _ _ => completes_node)
    (fun _ => fills_node) .nil) (fills_bind (fills_expression more _) (fun _ => fills_node) .nil)

theorem completes_parenthesised (below : Completing fuel (more + 2)) (steady : Steady fuel (more + 2))
    (next : c.rest = l :: rest) (start : Span) :
    Completes c (parenthesised fuel start) (parenthesised (more + 2) start) := by
  refine completes_pass next ?_ (fills_bind (fills_expression more 0) (fun _ => fills_expect fills_node) (.cons rfl))
  exact completes_bind (steady.expression _ 0) (below.expression _ 0)
    (fun _ _ _ => completes_expect (fun _ => completes_node) fills_node) (fun _ => fills_expect fills_node) (.cons rfl)

theorem completes_conditional (below : Completing fuel (more + 2)) (steady : Steady fuel (more + 2))
    (next : c.rest = l :: rest) (start : Span) :
    Completes c (conditional fuel start) (conditional (more + 2) start) := by
  have ended (condition : Expr) (consequence : List Stmt) : Fills []
      (do
        if ← eat .elseWord then
          let alternative ← block (more + 2)
          return Expr.conditional (← spanFrom start) condition consequence (some alternative)
        else return Expr.conditional (← spanFrom start) condition consequence none) :=
    fills_left rfl .nil fills_node
  have chosen (condition : Expr) := fills_bind (fills_block more) (ended condition) .nil
  refine completes_pass next ?_ (fills_expect (fills_bind (fills_expression more 0)
    (fun condition => fills_expect (chosen condition)) (.cons rfl)))
  refine completes_expect (fun d => ?_) (fills_bind (fills_expression more 0)
    (fun condition => fills_expect (chosen condition)) (.cons rfl))
  refine completes_bind (steady.expression d 0) (below.expression d 0) (fun condition e _ => ?_)
    (fun condition => fills_expect (chosen condition)) (.cons rfl)
  refine completes_expect (fun f => ?_) (chosen condition)
  refine completes_bind (steady.block f) (below.block f) (fun consequence g _ => ?_) (ended condition) .nil
  exact completes_eat rfl
    (fun h => completes_bind (steady.block h) (below.block h) (fun _ _ _ => completes_node) (fun _ => fills_node) .nil)
    (fills_bind (fills_block more) (fun _ => fills_node) .nil) (.cons rfl) (fun _ => completes_node) fills_node .nil

theorem completes_function (enough : fuel < more + 2) (below : Completing fuel (more + 2)) (steady : Steady fuel (more + 2))
    (next : c.rest = l :: rest) (start : Span) : Completes c (function fuel start) (function (more + 2) start) := by
  have ended (names : List String) : Fills (Lexeme.made [.leftBrace, .rightBrace])
      (do let body ← block (more + 2); return Expr.function (← spanFrom start) none names body) :=
    fills_bind (fills_block more) (fun _ => fills_node) .nil
  have finish (names : List String) (e : Cursor) : Completes e
      (do let body ← block fuel; return Expr.function (← spanFrom start) none names body)
      (do let body ← block (more + 2); return Expr.function (← spanFrom start) none names body) :=
    completes_bind (steady.block e) (below.block e) (fun _ _ _ => completes_node) (fun _ => fills_node) .nil
  have listed (d : Cursor) := completes_unless (t := .rightParen) (finish []) (ended [])
    (completes_bind (local_parameters (c := d) (Nat.le_of_lt enough) []) (completes_parameters enough [])
      (fun names e _ => finish names e) ended (.cons rfl))
  have fills : Fills (Lexeme.made [.rightParen, .leftBrace, .rightBrace]) _ :=
    fills_taken (y := do let names ← parameters (more + 2) []; let body ← block (more + 2)
                         return Expr.function (← spanFrom start) none names body) (ended [])
  exact completes_pass next (completes_expect listed fills) (fills_expect fills)

theorem completes_array (below : Completing fuel (more + 1)) (steady : Steady fuel (more + 1)) (next : c.rest = l :: rest)
    (start : Span) : Completes c (array fuel start) (array (more + 1) start) :=
  completes_pass next (completes_bind (steady.list _ _) (below.list _ rfl) (fun _ _ _ => completes_node)
    (fun _ => fills_node) .nil) (fills_bind (fills_list more _) (fun _ => fills_node) .nil)

theorem completes_hash (below : Completing fuel (more + 1)) (steady : Steady fuel (more + 1)) (next : c.rest = l :: rest)
    (start : Span) : Completes c (hash fuel start) (hash (more + 1) start) :=
  completes_pass next (completes_bind (steady.pairs _ _) (below.pairs _ _) (fun _ _ _ => completes_node)
    (fun _ => fills_node) .nil) (fills_bind (fills_pairs more _) (fun _ => fills_node) .nil)

theorem completes_leaf (next : c.rest = l :: rest) (e : Expr) : Completes c (leaf e) (leaf e) :=
  completes_pass next trivial fills_pure

end

theorem completes_begun (enough : fuel < more + 2) (below : Completing fuel (more + 2)) (steady : Steady fuel (more + 2))
    {t : Token} {place : Span} {rest : List Lexeme} (next : c.rest = ⟨t, place⟩ :: rest) (start : Span) :
    Completes c (begun fuel start t) (begun (more + 2) start t) := by
  cases t with
  | identifier | integer | float | string | trueWord | falseWord => exact completes_leaf next _
  | bang | minus => exact completes_unary below steady next start _
  | leftParen => exact completes_parenthesised below steady next start
  | ifWord => exact completes_conditional below steady next start
  | fnWord => exact completes_function enough below steady next start
  | leftBracket => exact completes_array below steady next start
  | leftBrace => exact completes_hash below steady next start
  | _ => exact completes_refuse

theorem completes_operand (enough : fuel < more + 2) (below : Completing fuel (more + 2)) (steady : Steady fuel (more + 2)) :
    Completes c (operand (fuel + 1)) (operand (more + 3)) := by
  obtain ⟨rest, position, previous⟩ := c
  cases rest with
  | nil => exact completes_ended rfl (local_operand (Nat.le_of_lt enough) steady)
  | cons l rest =>
    obtain ⟨t, place⟩ := l
    exact completes_taken rfl (completes_begun enough below steady rfl place) (operand_begun position previous)
      fun _ n => operand_begun n previous

section
variable {close : Token}

theorem completes_list (below : Completing fuel more) (ends : close.loose = true) :
    Completes c (list (fuel + 1) close) (list (more + 1) close) :=
  completes_unless (fun _ => trivial) fills_pure (below.listRest c ends [])

theorem completes_listRest (below : Completing fuel (more + 3)) (steady : Steady fuel (more + 3))
    (ends : close.loose = true) (read : List Expr) :
    Completes c (listRest (fuel + 1) close read) (listRest (more + 4) close read) := by
  refine completes_bind (steady.expression c 0) (below.expression c 0) (fun e d _ => ?_)
    (fun e => fills_listEnd ends _ _) (.cons ends)
  exact completes_eat rfl (fun _ => below.listRest _ ends _) (fills_listRest more ends _) (.cons rfl)
    (fun _ => completes_expect (fun _ => trivial) fills_pure) (fills_expect fills_pure) (.cons ends)

end

theorem completes_pairs (below : Completing fuel (more + 3)) (steady : Steady fuel (more + 3))
    (read : List (Expr × Expr)) : Completes c (pairs (fuel + 1) read) (pairs (more + 4) read) := by
  have ended (key value : Expr) : Fills (Lexeme.made [.rightBrace])
      (do
        if ← eat .comma then pairs (more + 3) ((key, value) :: read)
        else
          expect .rightBrace
          return ((key, value) :: read).reverse) :=
    fills_left rfl (.cons rfl) (fills_expect fills_pure)
  have valued (key : Expr) := fills_bind (fills_expression (more + 1) 0) (ended key) (.cons rfl)
  refine completes_unless (fun _ => trivial) fills_pure ?_
  refine completes_bind (steady.expression c 0) (below.expression c 0) (fun key d _ => ?_)
    (fun key => fills_expect (valued key)) (.cons rfl)
  refine completes_expect (fun e => ?_) (valued key)
  refine completes_bind (steady.expression e 0) (below.expression e 0) (fun value f _ => ?_) (ended key) (.cons rfl)
  exact completes_eat rfl (fun _ => below.pairs _ _) (fills_pairs (more + 2) _) (.cons rfl)
    (fun _ => completes_expect (fun _ => trivial) fills_pure) (fills_expect fills_pure) (.cons rfl)

-- By induction on the fuel. What is made up needs a little more of it than what failed had.
theorem completing (enough : fuel + 3 ≤ more) : Completing fuel more := by
  induction fuel generalizing more with
  | zero =>
    constructor
    all_goals intros; trivial
  | succ fuel ih =>
    obtain ⟨more, rfl⟩ := Nat.exists_eq_add_of_le' (Nat.le_trans (Nat.le_add_left 4 fuel) enough)
    have below := ih (Nat.le_of_succ_le_succ enough)
    have fewer : fuel < more + 3 := by omega
    have steady := steady (Nat.le_of_lt fewer)
    exact ⟨fun _ _ _ next => completes_declared below steady next, fun _ => completes_sentence below steady,
      fun _ => completes_block below, fun _ => completes_blockRest below steady,
      fun _ => completes_expression below steady, fun _ => completes_extend below steady,
      fun _ => completes_operand fewer below steady, fun _ _ ends => completes_list below ends,
      fun _ _ ends => completes_listRest below steady ends, fun _ => completes_pairs below steady⟩

end Parsing
end StackScript
