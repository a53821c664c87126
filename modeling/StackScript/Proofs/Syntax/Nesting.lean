import StackScript.Proofs.Syntax.Parts
import StackScript.Proofs.Syntax.Rounds
import StackScript.Session

-- Reading lays out the parts of a program over the lexemes that it passes.
namespace StackScript

-- Reading has come from `c` to `d`, past some lexemes in which these parts lie.
structure Laid (c : Cursor) (qs : List Part) (d : Cursor) : Prop where
  ordered : Ordered c.rest
  past : ∃ ls, c.Passes ls d ∧ ls ≠ [] ∧ Arranged qs ls

structure Covered (c : Cursor) (q : Part) (d : Cursor) : Prop where
  ordered : Ordered c.rest
  past : ∃ ls, c.Passes ls d ∧ q.Covers ls

section
variable {c d e : Cursor} {q r : Part} {qs rs : List Part} {ls ms : List Lexeme}

namespace Cursor.Passes

theorem previous (passes : c.Passes ls d) : ∀ l ∈ ls.getLast?, d.previous = l.span := by
  induction passes with
  | nil => simp
  | @next l rest ls _ _ d inner ih =>
    intro m last
    cases ls with
    | nil =>
      cases last
      cases inner
      rfl
    | cons l' ls => exact ih m (by rwa [List.getLast?_cons_cons] at last)

theorem here (passes : c.Passes ls d) : ∀ l ∈ ls.head?, c.here = l.span := by
  intro l first
  obtain ⟨rest, rfl⟩ := List.head?_eq_some_iff.mp first
  rw [Cursor.here, passes.rest]
  rfl

theorem ordered (passes : c.Passes ls d) (ordered : Ordered c.rest) : Ordered ls ∧ Ordered d.rest := by
  rw [passes.rest] at ordered
  exact ⟨ordered.sublist (List.sublist_append_left _ _), ordered.sublist (List.sublist_append_right _ _)⟩

end Cursor.Passes

theorem Part.Covers.ne_nil (covers : q.Covers ls) : ls ≠ [] := by
  rintro rfl
  obtain ⟨l, first, -⟩ := covers.span.starts
  cases first

theorem Covered.span (covered : Covered c q d) : q.span.start = c.here.start ∧ q.span.stop = d.previous.stop := by
  obtain ⟨ls, passes, covers⟩ := covered.past
  obtain ⟨l, first, starts⟩ := covers.span.starts
  obtain ⟨m, last, stops⟩ := covers.span.stops
  rw [passes.here l first, passes.previous m last]
  exact ⟨starts.symm, stops.symm⟩

theorem Covered.laid (covered : Covered c q d) : Laid c [q] d := by
  obtain ⟨ls, passes, covers⟩ := covered.past
  exact ⟨covered.ordered, ls, passes, covers.ne_nil, covers.arranged⟩

namespace Laid

theorem behind (laid : Laid c qs d) : Ordered d.rest := by
  obtain ⟨ls, passes, -⟩ := laid.past
  exact (passes.ordered laid.ordered).2

theorem passed (laid : Laid c qs d) (passes : d.Passes ms e) : Laid c qs e := by
  obtain ⟨ls, passes', nonempty, arranged⟩ := laid.past
  exact ⟨laid.ordered, ls ++ ms, passes'.trans passes, List.append_ne_nil_of_left_ne_nil nonempty _, arranged.up _⟩

theorem part (laid : Laid c qs d) (covered : Covered d q e) : Laid c (qs ++ [q]) e := by
  obtain ⟨ls, passes, nonempty, arranged⟩ := laid.past
  obtain ⟨ms, passes', covers⟩ := covered.past
  exact ⟨laid.ordered, ls ++ ms, passes.trans passes', List.append_ne_nil_of_left_ne_nil nonempty _,
    arranged.append covers.arranged⟩

theorem ends (laid : Laid c qs d) : ∃ ls, c.Passes ls d ∧ Arranged qs ls ∧
    (∃ l ∈ ls.head?, l.span = c.here) ∧ ∃ m ∈ ls.getLast?, m.span = d.previous := by
  obtain ⟨ls, passes, nonempty, arranged⟩ := laid.past
  obtain ⟨l, first⟩ := Option.ne_none_iff_exists'.mp (mt List.head?_eq_none_iff.mp nonempty)
  obtain ⟨m, last⟩ := Option.ne_none_iff_exists'.mp (mt List.getLast?_eq_none_iff.mp nonempty)
  exact ⟨ls, passes, arranged, ⟨l, first, (passes.here l first).symm⟩, ⟨m, last, (passes.previous m last).symm⟩⟩

theorem bounds (laid : Laid c qs d) : c.here.start ≤ d.previous.start ∧ c.here.stop ≤ d.previous.stop ∧
    ∀ q ∈ qs, c.here.start ≤ q.span.start ∧ q.span.stop ≤ d.previous.stop := by
  obtain ⟨ls, passes, arranged, ⟨l, first, here⟩, ⟨m, last, previous⟩⟩ := laid.ends
  obtain ⟨ordered, -⟩ := passes.ordered laid.ordered
  rw [← here, ← previous]
  refine ⟨ordered.start_le first (List.mem_of_mem_getLast? last), ordered.le_stop last (List.mem_of_mem_head? first), ?_⟩
  intro q present
  obtain ⟨part, less, covers⟩ := arranged.covered q present
  have whole : Spans ⟨l.span.start, m.span.stop⟩ ls := ⟨⟨l, first, rfl⟩, ⟨m, last, rfl⟩⟩
  exact whole.contains ordered less covers.span

theorem like (laid : Laid c [q] d) (span : r.span = q.span) (inner : r.inner = q.inner) : Laid c [r] d := by
  obtain ⟨ls, passes, nonempty, arranged⟩ := laid.past
  exact ⟨laid.ordered, ls, passes, nonempty, arranged.like span inner⟩

theorem inner (laid : Laid c [q] d) : Laid c q.inner d := by
  obtain ⟨ls, passes, nonempty, arranged⟩ := laid.past
  exact ⟨laid.ordered, ls, passes, nonempty, arranged.inner⟩

theorem covered (laid : Laid c q.inner d) (starts : q.span.start = c.here.start) (stops : q.span.stop = d.previous.stop) :
    Covered c q d := by
  obtain ⟨ls, passes, arranged, ⟨l, first, here⟩, ⟨m, last, previous⟩⟩ := laid.ends
  rw [← here] at starts
  rw [← previous] at stops
  exact ⟨laid.ordered, ls, passes, ⟨⟨l, first, starts.symm⟩, ⟨m, last, stops.symm⟩⟩, arranged⟩

end Laid

end

namespace Parsing

variable {α β : Type} {P : Cursor → Prop} {Q : α → Cursor → Prop} {R : β → Cursor → Prop} {x : Parsing α} {c : Cursor}
  {qs : List Part} {fuel : Nat}

-- From where `P` holds, `x` succeeds with what is `Q` where it then stands, if it does.
def Gives (P : Cursor → Prop) (x : Parsing α) (Q : α → Cursor → Prop) : Prop := ∀ c a d, P c → x c = .ok a d → Q a d

theorem gives_bind {b : Parsing β} {f : β → Parsing α} (first : Gives P b R) (next : ∀ v, Gives (R v) (f v) Q) :
    Gives P (b >>= f) Q := by
  intro c a d before run
  simp only [bind, EStateM.bind] at run
  cases here : b c with
  | error h e =>
    rw [here] at run
    cases run
  | ok v e =>
    rw [here] at run
    exact next v e a d (first c v e before here) run

theorem gives_pure {a : α} (known : ∀ c, P c → Q a c) : Gives P (pure a) Q := by
  intro c b d before run
  cases run
  exact known c before

theorem gives_exhausted : Gives P (throw .exhausted) Q := by
  rintro c a d - ⟨⟩

theorem gives_ite {p : Prop} [Decidable p] {y : Parsing α} (yes : Gives P x Q) (no : Gives P y Q) :
    Gives P (if p then x else y) Q := by
  split
  · exact yes
  · exact no

theorem gives_passed {least early : Nat} {y : Parsing α} (reads : ∀ d, Local least early d x y) :
    Gives (Laid c qs) x fun _ => Laid c qs := by
  intro d a e laid run
  obtain ⟨ls, passes, -⟩ := local_ok (reads d) run
  exact laid.passed passes

theorem gives_eat (t : Token) : Gives (Laid c qs) (eat t) fun _ => Laid c qs := by
  intro d found e laid run
  rw [eat_eq] at run
  split at run
  · rename_i here
    obtain ⟨place, rest, next⟩ := peek_cons here
    obtain ⟨_, position, previous⟩ := d
    cases next
    cases run
    exact laid.passed (.next .nil)
  · cases run
    exact laid

section
variable {l : Lexeme} {rest : List Lexeme}

theorem gives_first (ordered : Ordered c.rest) (next : c.rest = l :: rest) :
    Gives (· = c) advance fun _ => Laid c [] := by
  intro b _ d same run
  obtain ⟨_, position, previous⟩ := c
  cases same
  cases next
  cases run
  exact ⟨ordered, [l], .next .nil, List.cons_ne_nil _ _, .nil⟩

theorem gives_next {d : Cursor} (laid : Laid c qs d) (next : d.rest = l :: rest) :
    Gives (· = d) advance fun _ => Laid c qs := by
  intro b _ e same run
  obtain ⟨_, position, previous⟩ := d
  cases same
  cases next
  cases run
  exact laid.passed (.next .nil)

end

theorem gives_span {start : Span} {part : Span → Part} (inner : ∀ s, (part s).inner = qs) (span : ∀ s, (part s).span = s)
    (begins : start.start = c.here.start) (within : ∀ d, Laid c qs d → start.stop ≤ d.previous.stop) :
    Gives (Laid c qs) (spanFrom start) fun s => Covered c (part s) := by
  intro d s e laid run
  cases run
  have bounds := laid.bounds
  have stop := within d laid
  rw [← inner (start.merge d.previous)] at laid
  refine laid.covered ?_ ?_
  · rw [span]
    change min start.start d.previous.start = _
    omega
  · rw [span]
    change max start.stop d.previous.stop = _
    omega

theorem gives_node {made : Span → α} {part : α → Part} (inner : ∀ s, (part (made s)).inner = qs)
    (span : ∀ s, (part (made s)).span = s) :
    Gives (Laid c qs) (do return made (← spanFrom c.here)) fun a => Covered c (part a) := by
  have ranged : Gives (Laid c qs) (spanFrom c.here) fun s => Covered c (part (made s)) :=
    gives_span inner span rfl fun _ laid => laid.bounds.2.1
  exact gives_bind ranged fun _ => gives_pure fun _ covered => covered

-- How the parts of a program are laid out that are read with some fuel.
structure Laying (fuel : Nat) : Prop where
  declared (c : Cursor) (ordered : Ordered c.rest) {l : Lexeme} {rest : List Lexeme} (next : c.rest = l :: rest)
    (mutability : Mutability) : Gives (· = c) (declared fuel c.here mutability) fun s => Covered c (.statement s)
  sentence (c : Cursor) (ordered : Ordered c.rest) : Gives (· = c) (sentence fuel) fun s => Covered c (.statement s)
  block (c : Cursor) (qs : List Part) : Gives (Laid c qs) (block fuel) fun body => Laid c (qs ++ body.map .statement)
  blockRest (c : Cursor) (qs : List Part) (read : List Stmt) :
    Gives (Laid c (qs ++ read.reverse.map .statement)) (blockRest fuel read) fun body => Laid c (qs ++ body.map .statement)
  expression (c : Cursor) (ordered : Ordered c.rest) (level : Nat) :
    Gives (· = c) (expression fuel level) fun e => Covered c (.expression e)
  extend (c : Cursor) (level : Nat) (left : Expr) :
    Gives (Covered c (.expression left)) (extend fuel level left) fun e => Covered c (.expression e)
  operand (c : Cursor) (ordered : Ordered c.rest) : Gives (· = c) (operand fuel) fun e => Covered c (.expression e)
  list (c : Cursor) (qs : List Part) (close : Token) :
    Gives (Laid c qs) (list fuel close) fun es => Laid c (qs ++ es.map .expression)
  listRest (c : Cursor) (qs : List Part) (close : Token) (read : List Expr) :
    Gives (Laid c (qs ++ read.reverse.map .expression)) (listRest fuel close read)
      fun es => Laid c (qs ++ es.map .expression)
  pairs (c : Cursor) (qs : List Part) (read : List (Expr × Expr)) :
    Gives (Laid c (qs ++ Part.ofPairs read.reverse)) (pairs fuel read) fun es => Laid c (qs ++ Part.ofPairs es)

theorem gives_part {part : α → Part} (whole : ∀ d, Ordered d.rest → Gives (· = d) x fun a => Covered d (part a)) :
    Gives (Laid c qs) x fun a => Laid c (qs ++ [part a]) :=
  fun d a e laid run => laid.part (whole d laid.behind d a e rfl run)

theorem Laying.inner (below : Laying fuel) (level : Nat) :
    Gives (Laid c qs) (Parsing.expression fuel level) fun e => Laid c (qs ++ [.expression e]) :=
  gives_part fun d ordered => below.expression d ordered level

theorem Laying.first (below : Laying fuel) (ordered : Ordered c.rest) :
    Gives (· = c) (Parsing.expression fuel 0) fun e => Laid c [.expression e] :=
  fun d e f here run => (below.expression c ordered 0 d e f here run).laid

theorem gives_closed {b : Parsing Stmt} {rs : Stmt → List Part} (first : Gives P b fun s => Laid c (rs s)) :
    Gives P (closed b) fun s => Laid c (rs s) :=
  gives_bind first fun _ => gives_bind (gives_eat .semicolon) fun _ => gives_pure fun _ laid => laid

theorem Laying.statement (below : Laying fuel) :
    Gives (Laid c qs) (Parsing.statement fuel) fun s => Laid c (qs ++ [.statement s]) := by
  rw [statement_closed]
  exact gives_closed (gives_part below.sentence)

theorem Laying.outermost (below : Laying fuel) (ordered : Ordered c.rest) :
    Gives (· = c) (Parsing.statement fuel) fun s => Laid c [.statement s] := by
  rw [statement_closed]
  exact gives_closed fun d s e same run => (below.sentence c ordered d s e same run).laid

theorem laid_valued (below : Laying fuel) {made : Span → Expr → Stmt}
    (inner : ∀ s value, (Part.statement (made s value)).inner = [.expression value])
    (span : ∀ s value, (Part.statement (made s value)).span = s) : Gives (Laid c [])
      (do
        let value ← expression fuel 0
        return made (← spanFrom c.here) value) fun s => Covered c (.statement s) :=
  gives_bind (below.inner 0) fun value => gives_node (fun s => inner s value) fun s => span s value

theorem laid_declared (below : Laying fuel) (ordered : Ordered c.rest) {l : Lexeme} {rest : List Lexeme}
    (next : c.rest = l :: rest) (mutability : Mutability) :
    Gives (· = c) (declared (fuel + 1) c.here mutability) fun s => Covered c (.statement s) := by
  refine gives_bind (gives_first ordered next) fun _ => ?_
  refine gives_bind (gives_passed fun _ => local_expectIdentifier) fun name => ?_
  refine gives_bind (gives_passed fun _ => local_expect _) fun _ => ?_
  refine gives_bind (below.inner 0) fun value => ?_
  -- A function takes the name, but it stays where it is.
  have named : Gives (Laid c [.expression (value.named name)])
      (do return Stmt.declare (← spanFrom c.here) mutability name (value.named name)) fun s => Covered c (.statement s) :=
    gives_node (fun _ => rfl) fun _ => rfl
  intro d s e laid run
  exact named d s e (laid.like (Part.span_named value name) (Part.inner_named value name)) run

theorem laid_sentence (below : Laying fuel) (ordered : Ordered c.rest) :
    Gives (· = c) (sentence (fuel + 1)) fun s => Covered c (.statement s) := by
  have other : Gives (· = c)
      (do
        let value ← expression fuel 0
        return Stmt.expression (← spanFrom c.here) value) fun s => Covered c (.statement s) :=
    gives_bind (below.first ordered) fun value => gives_node (fun _ => rfl) fun _ => rfl
  have valued {made : Span → Expr → Stmt} (inner : ∀ s value, (Part.statement (made s value)).inner = [.expression value])
    (span : ∀ s value, (Part.statement (made s value)).span = s) := laid_valued (c := c) below inner span
  intro d s e same run
  obtain ⟨rest, position, previous⟩ := c
  cases same
  cases rest with
  | nil => exact other _ _ _ rfl run
  | cons l rest =>
    obtain ⟨t, place⟩ := l
    cases t with
    | letWord => exact below.declared _ ordered rfl .fixed _ _ _ rfl run
    | varWord => exact below.declared _ ordered rfl .assignable _ _ _ rfl run
    | returnWord =>
      exact valued (fun _ _ => rfl) (fun _ _ => rfl) ⟨rest, position + 1, place⟩ s e
        ⟨ordered, [_], .next .nil, List.cons_ne_nil _ _, .nil⟩ run
    | identifier name =>
      cases rest with
      | nil => exact other _ _ _ rfl run
      | cons l rest =>
        obtain ⟨t, place'⟩ := l
        cases t with
        | assign =>
          exact valued (fun _ _ => rfl) (fun _ _ => rfl) ⟨rest, position + 1 + 1, place'⟩ s e
            ⟨ordered, [_, _], .next (.next .nil), List.cons_ne_nil _ _, .nil⟩ run
        | _ => exact other _ _ _ rfl run
    | _ => exact other _ _ _ rfl run

theorem laid_block (below : Laying fuel) :
    Gives (Laid c qs) (block (fuel + 1)) fun body => Laid c (qs ++ body.map .statement) := by
  refine gives_bind (gives_passed fun _ => local_expect _) fun _ => ?_
  have rest := below.blockRest c qs []
  rwa [List.reverse_nil, List.map_nil, List.append_nil] at rest

theorem laid_blockRest (below : Laying fuel) (read : List Stmt) :
    Gives (Laid c (qs ++ read.reverse.map .statement)) (blockRest (fuel + 1) read)
      fun body => Laid c (qs ++ body.map .statement) := by
  have onward : Gives (Laid c (qs ++ read.reverse.map .statement))
      (do let s ← statement fuel; blockRest fuel (s :: read)) fun body => Laid c (qs ++ body.map .statement) := by
    refine gives_bind below.statement fun s => ?_
    have rest := below.blockRest c qs (s :: read)
    rwa [List.reverse_cons, List.map_append, ← List.append_assoc] at rest
  intro d body e laid run
  obtain ⟨rest, position, previous⟩ := d
  cases rest with
  | nil => cases run
  | cons l rest =>
    obtain ⟨t, place⟩ := l
    cases t with
    | rightBrace =>
      cases run
      exact laid.passed (.next .nil)
    | _ => exact onward _ body e laid run

theorem laid_expression (below : Laying fuel) (ordered : Ordered c.rest) (level : Nat) :
    Gives (· = c) (expression (fuel + 1) level) fun e => Covered c (.expression e) :=
  gives_bind (below.operand c ordered) fun left => below.extend c level left

theorem laid_continued (below : Laying fuel) (level : Nat) (left : Expr) {d : Cursor} {t : Token} {place : Span}
    {rest : List Lexeme} (covered : Covered c (.expression left) d) (next : d.rest = ⟨t, place⟩ :: rest) :
    Gives (· = d) (continued fuel level left t) fun e => Covered c (.expression e) := by
  have begins : left.span.start = c.here.start := covered.span.1
  -- A call or an access begins where its left part does.
  have spanned {made : Span → Expr} {others : List Part}
      (inner : ∀ s, (Part.expression (made s)).inner = .expression left :: others)
      (span : ∀ s, (Part.expression (made s)).span = s) : Gives (Laid c (.expression left :: others))
      (do let span ← spanFrom left.span; extend fuel level (made span)) fun e => Covered c (.expression e) := by
    have ranged : Gives (Laid c (.expression left :: others)) (spanFrom left.span)
        fun s => Covered c (.expression (made s)) :=
      gives_span inner span begins fun d laid => (laid.bounds.2.2 _ List.mem_cons_self).2
    exact gives_bind ranged fun s => below.extend c level (made s)
  have right (operator : String) (level : Nat) : Gives (Laid c [.expression left]) (expression fuel level)
      fun right => Covered c (.expression (.binary (left.span.merge right.span) operator left right)) := by
    intro d right e laid run
    have ends := below.expression d laid.behind level d right e rfl run
    have whole : Laid c [.expression left, .expression right] e := laid.part ends
    have bounds := whole.bounds.2.2
    have first := bounds (.expression left) List.mem_cons_self
    have last := bounds (.expression right) (List.mem_cons_of_mem _ List.mem_cons_self)
    have stops : right.span.stop = e.previous.stop := ends.span.2
    refine Laid.covered whole ?_ ?_
    · change min left.span.start right.span.start = _
      have start : c.here.start ≤ right.span.start := last.1
      omega
    · change max left.span.stop right.span.stop = _
      have stop : left.span.stop ≤ e.previous.stop := first.2
      omega
  cases t with
  | leftParen =>
    refine gives_bind (gives_next covered.laid next) fun _ => ?_
    refine gives_bind (below.list c [.expression left] .rightParen) fun arguments => ?_
    exact spanned (fun _ => rfl) fun _ => rfl
  | leftBracket =>
    refine gives_bind (gives_next covered.laid next) fun _ => ?_
    refine gives_bind (below.inner 0) fun position => ?_
    refine gives_bind (gives_passed fun _ => local_expect _) fun _ => ?_
    exact spanned (fun _ => rfl) fun _ => rfl
  | _ =>
    refine gives_bind (gives_next covered.laid next) fun _ => ?_
    exact gives_bind (right _ _) fun _ => below.extend c level _

theorem laid_extend (below : Laying fuel) (level : Nat) (left : Expr) :
    Gives (Covered c (.expression left)) (extend (fuel + 1) level left) fun e => Covered c (.expression e) := by
  intro d e f covered run
  by_cases loose : ∀ t ∈ d.peek?, t.precedence ≤ level
  · rw [extend_stops loose] at run
    cases run
    exact covered
  · obtain ⟨rest, position, previous⟩ := d
    cases rest with
    | nil => exact absurd (by rintro t ⟨⟩) loose
    | cons l rest =>
      obtain ⟨t, place⟩ := l
      have tight : ¬ t.precedence ≤ level := fun known => loose (by rintro _ ⟨⟩; exact known)
      rw [extend_continued position previous tight] at run
      exact laid_continued below level left covered rfl _ e f rfl run

section
variable {l : Lexeme} {rest : List Lexeme}

theorem laid_unary (below : Laying fuel) (ordered : Ordered c.rest) (next : c.rest = l :: rest) (operator : String) :
    Gives (· = c) (unary fuel c.here operator) fun e => Covered c (.expression e) := by
  refine gives_bind (gives_first ordered next) fun _ => ?_
  exact gives_bind (below.inner _) fun right => gives_node (fun _ => rfl) fun _ => rfl

theorem laid_parenthesised (below : Laying fuel) (ordered : Ordered c.rest) (next : c.rest = l :: rest) :
    Gives (· = c) (parenthesised fuel c.here) fun e => Covered c (.expression e) := by
  refine gives_bind (gives_first ordered next) fun _ => ?_
  refine gives_bind (below.inner 0) fun inner => ?_
  refine gives_bind (gives_passed fun _ => local_expect _) fun _ => ?_
  have placed : Gives (Laid c (Part.expression inner).inner) (do return inner.placed (← spanFrom c.here))
      fun e => Covered c (.expression e) :=
    gives_node (Part.inner_placed inner) (Part.span_placed inner)
  exact fun d e f laid run => placed d e f laid.inner run

theorem laid_conditional (below : Laying fuel) (ordered : Ordered c.rest) (next : c.rest = l :: rest) :
    Gives (· = c) (conditional fuel c.here) fun e => Covered c (.expression e) := by
  refine gives_bind (gives_first ordered next) fun _ => ?_
  refine gives_bind (gives_passed fun _ => local_expect _) fun _ => ?_
  refine gives_bind (below.inner 0) fun condition => ?_
  refine gives_bind (gives_passed fun _ => local_expect _) fun _ => ?_
  refine gives_bind (below.block c _) fun consequence => ?_
  refine gives_bind (gives_eat _) fun found => gives_ite ?_ ?_
  · refine gives_bind (below.block c _) fun alternative => gives_node (fun _ => ?_) fun _ => rfl
    simp [Part.inner]
  · refine gives_node (fun _ => ?_) fun _ => rfl
    simp [Part.inner]

theorem laid_function (below : Laying fuel) (ordered : Ordered c.rest) (next : c.rest = l :: rest) :
    Gives (· = c) (function fuel c.here) fun e => Covered c (.expression e) := by
  refine gives_bind (gives_first ordered next) fun _ => ?_
  refine gives_bind (gives_passed fun _ => local_expect _) fun _ => ?_
  have finish (names : List String) : Gives (Laid c [])
      (do let body ← block fuel; return Expr.function (← spanFrom c.here) none names body)
      fun e => Covered c (.expression e) :=
    gives_bind (below.block c []) fun body => gives_node (fun _ => rfl) fun _ => rfl
  refine gives_bind (gives_eat .rightParen) fun found => ?_
  cases found with
  | true => exact finish []
  | false => exact gives_bind (gives_passed fun _ => local_parameters (Nat.le_refl fuel) []) fun names => finish names

theorem laid_array (below : Laying fuel) (ordered : Ordered c.rest) (next : c.rest = l :: rest) :
    Gives (· = c) (array fuel c.here) fun e => Covered c (.expression e) := by
  refine gives_bind (gives_first ordered next) fun _ => ?_
  exact gives_bind (below.list c [] _) fun elements => gives_node (fun _ => rfl) fun _ => rfl

theorem laid_hash (below : Laying fuel) (ordered : Ordered c.rest) (next : c.rest = l :: rest) :
    Gives (· = c) (hash fuel c.here) fun e => Covered c (.expression e) := by
  refine gives_bind (gives_first ordered next) fun _ => ?_
  exact gives_bind (below.pairs c [] []) fun entries => gives_node (fun _ => rfl) fun _ => rfl

theorem laid_leaf (ordered : Ordered c.rest) (next : c.rest = l :: rest) {e : Expr} (bare : (Part.expression e).inner = [])
    (span : e.span = c.here) : Gives (· = c) (leaf e) fun e => Covered c (.expression e) := by
  intro b f d same run
  obtain ⟨_, position, previous⟩ := c
  cases same
  cases next
  cases run
  refine ⟨ordered, [l], .next .nil, ⟨⟨l, rfl, ?_⟩, ⟨l, rfl, ?_⟩⟩, ?_⟩
  · exact congrArg Span.start span.symm
  · exact congrArg Span.stop span.symm
  · rw [bare]
    exact .nil

end

theorem laid_operand (below : Laying fuel) (ordered : Ordered c.rest) :
    Gives (· = c) (operand (fuel + 1)) fun e => Covered c (.expression e) := by
  intro b e d same run
  obtain ⟨rest, position, previous⟩ := c
  cases same
  cases rest with
  | nil => cases run
  | cons l rest =>
    obtain ⟨t, place⟩ := l
    rw [operand_begun] at run
    cases t with
    | identifier | integer | float | string | trueWord | falseWord =>
      exact laid_leaf ordered rfl rfl rfl _ _ _ rfl run
    | bang | minus => exact laid_unary below ordered rfl _ _ _ _ rfl run
    | leftParen => exact laid_parenthesised below ordered rfl _ _ _ rfl run
    | ifWord => exact laid_conditional below ordered rfl _ _ _ rfl run
    | fnWord => exact laid_function below ordered rfl _ _ _ rfl run
    | leftBracket => exact laid_array below ordered rfl _ _ _ rfl run
    | leftBrace => exact laid_hash below ordered rfl _ _ _ rfl run
    | _ => cases run

theorem laid_list (below : Laying fuel) (close : Token) :
    Gives (Laid c qs) (list (fuel + 1) close) fun es => Laid c (qs ++ es.map .expression) := by
  refine gives_bind (gives_eat _) fun found => gives_ite ?_ ?_
  · refine gives_pure fun _ laid => ?_
    rwa [List.map_nil, List.append_nil]
  · have rest := below.listRest c qs close []
    rwa [List.reverse_nil, List.map_nil, List.append_nil] at rest

theorem laid_listRest (below : Laying fuel) (close : Token) (read : List Expr) :
    Gives (Laid c (qs ++ read.reverse.map .expression)) (listRest (fuel + 1) close read)
      fun es => Laid c (qs ++ es.map .expression) := by
  refine gives_bind (below.inner 0) fun e => ?_
  have longer : qs ++ read.reverse.map .expression ++ [.expression e] = qs ++ (e :: read).reverse.map .expression := by
    rw [List.reverse_cons, List.map_append, List.append_assoc]
    rfl
  rw [longer]
  refine gives_bind (gives_eat _) fun found => gives_ite (below.listRest c qs close _) ?_
  exact gives_bind (gives_passed fun _ => local_expect _) fun _ => gives_pure fun _ laid => laid

theorem laid_pairs (below : Laying fuel) (read : List (Expr × Expr)) :
    Gives (Laid c (qs ++ Part.ofPairs read.reverse)) (pairs (fuel + 1) read) fun es => Laid c (qs ++ Part.ofPairs es) := by
  refine gives_bind (gives_eat _) fun found => gives_ite (gives_pure fun _ laid => laid) ?_
  refine gives_bind (below.inner 0) fun key => ?_
  refine gives_bind (gives_passed fun _ => local_expect _) fun _ => ?_
  refine gives_bind (below.inner 0) fun value => ?_
  have longer : qs ++ Part.ofPairs read.reverse ++ [.expression key] ++ [.expression value] =
      qs ++ Part.ofPairs ((key, value) :: read).reverse := by
    simp [Part.ofPairs]
  rw [longer]
  refine gives_bind (gives_eat _) fun found => gives_ite (below.pairs c qs _) ?_
  exact gives_bind (gives_passed fun _ => local_expect _) fun _ => gives_pure fun _ laid => laid

-- By induction on the fuel.
theorem laying (fuel : Nat) : Laying fuel := by
  induction fuel with
  | zero =>
    constructor
    all_goals intros; exact gives_exhausted
  | succ fuel below =>
    exact ⟨fun _ ordered _ _ next => laid_declared below ordered next, fun _ => laid_sentence below,
      fun _ _ => laid_block below, fun _ _ => laid_blockRest below, fun _ => laid_expression below,
      fun _ => laid_extend below, fun _ => laid_operand below, fun _ _ => laid_list below,
      fun _ _ => laid_listRest below, fun _ _ => laid_pairs below⟩

end Parsing

-- The statements of a text lie in what is passed, whatever is skipped between them.
theorem Rounds.arranged {depth found : Nat} {c last : Cursor} {rounds : List Round}
    (run : Rounds depth found c rounds last) (ordered : Ordered c.rest) :
    Arranged ((rounds.filterMap Round.statement?).map .statement) (rounds.flatMap Round.lexemes) := by
  induction run with
  | ended => exact .nil
  | @read _ c d _ s passed rounds _ _ run passes _ ih =>
    have laid := (Parsing.laying depth).outermost ordered c s d rfl run
    obtain ⟨ls, passes', -, here⟩ := laid.past
    cases passes.unique passes'
    exact here.append (ih (passes.ordered ordered).2)
  | @failed _ c d _ _ passed skipped _ _ _ _ passes skips _ ih =>
    exact (ih ((passes.trans skips).ordered ordered).2).past (passed ++ skipped)

theorem Parsed.ofLexemes_arranged {lexemes : List Lexeme} (ordered : Ordered lexemes) :
    ∃ ls, ls.Sublist lexemes ∧ Arranged ((ofLexemes lexemes).statements.map .statement) ls := by
  obtain ⟨rounds, last, run⟩ := Parsed.rounds lexemes
  have whole : lexemes = rounds.flatMap Round.lexemes ++ last.rest := run.passes.rest
  refine ⟨rounds.flatMap Round.lexemes, ?_, ?_⟩
  · rw [whole]
    exact List.sublist_append_left _ _
  · rw [run.parsed]
    exact run.arranged ordered

theorem Program.ofSource_ok {source : String} {p : Program} (accepted : ofSource source = .ok p) :
    ∃ found, lexemes source = .ok found ∧ p.statements = (Parsed.ofLexemes found.toList).statements := by
  rw [ofSource] at accepted
  cases scanned : lexemes source with
  | error e =>
    rw [scanned] at accepted
    cases accepted
  | ok found =>
    rw [scanned] at accepted
    refine ⟨found, rfl, ?_⟩
    simp only [ofLexemes] at accepted
    split at accepted
    · cases accepted
    · rename_i read
      cases accepted
      split at read
      · cases read
        rfl
      · cases read

-- In a program read from a text every statement and every expression spans from the start of a token to the end of one. It
-- contains what the parts inside it span, and these stand one behind the other, in the order of the source; so do the
-- statements of the program.
theorem spans_nest (source : String) (p : Program) (accepted : Program.ofSource source = .ok p) :
    ∃ found, lexemes source = .ok found ∧
      (∀ s ∈ p.statements, ∀ q : Part, q.Inside (.statement s) →
        (∃ l ∈ found, q.span.start = l.span.start) ∧ (∃ l ∈ found, q.span.stop = l.span.stop) ∧
        q.span.start < q.span.stop ∧
        (∀ r ∈ q.inner, q.span.start ≤ r.span.start ∧ r.span.stop ≤ q.span.stop) ∧
        q.inner.Pairwise fun a b => a.span.stop ≤ b.span.start) ∧
      p.statements.Pairwise fun a b => a.span.stop ≤ b.span.start := by
  obtain ⟨found, scanned, statements⟩ := Program.ofSource_ok accepted
  have ordered := lexemes_ordered scanned
  obtain ⟨ls, less, arranged⟩ := Parsed.ofLexemes_arranged ordered
  rw [← statements] at arranged
  refine ⟨found, scanned, ?_, ?_⟩
  · intro s present q inside
    obtain ⟨here, less', covers⟩ := arranged.covered _ (List.mem_map_of_mem present)
    obtain ⟨there, less'', covers'⟩ := covers.inside inside
    obtain ⟨starts, stops, wide, contains, apart⟩ := covers'.fits ordered ((less''.trans less').trans less)
    exact ⟨by simpa using starts, by simpa using stops, wide, contains, apart⟩
  · exact List.pairwise_map.mp (arranged.apart (ordered.sublist less))

-- A parenthesised callee, and what is accessed begins where its parentheses do.
def Lexeme.accessed : Array Lexeme := #[⟨.leftParen, ⟨0, 1⟩⟩, ⟨.identifier "f", ⟨1, 2⟩⟩, ⟨.rightParen, ⟨2, 3⟩⟩,
  ⟨.leftParen, ⟨3, 4⟩⟩, ⟨.integer 1, ⟨4, 5⟩⟩, ⟨.rightParen, ⟨5, 6⟩⟩, ⟨.leftBracket, ⟨6, 7⟩⟩, ⟨.integer 2, ⟨7, 8⟩⟩,
  ⟨.rightBracket, ⟨8, 9⟩⟩, ⟨.semicolon, ⟨9, 10⟩⟩, ⟨.minus, ⟨11, 12⟩⟩, ⟨.identifier "y", ⟨12, 13⟩⟩]

def Program.accessed : Program :=
  ⟨[.expression ⟨0, 9⟩ (.index ⟨0, 9⟩ (.call ⟨0, 6⟩ (.identifier ⟨0, 3⟩ "f") [.integer ⟨4, 5⟩ 1]) (.integer ⟨7, 8⟩ 2)),
    .expression ⟨11, 13⟩ (.unary ⟨11, 13⟩ "-" (.identifier ⟨12, 13⟩ "y"))], some "(f)(1)[2]; -y"⟩

theorem spans_nest_accessed : Program.ofSource "(f)(1)[2]; -y" = .ok .accessed ∧
    (∀ s ∈ Program.accessed.statements, ∀ q : Part, q.Inside (.statement s) →
      (∃ l ∈ Lexeme.accessed, q.span.start = l.span.start) ∧ ∃ l ∈ Lexeme.accessed, q.span.stop = l.span.stop) ∧
    Program.accessed.statements.Pairwise fun a b => a.span.stop ≤ b.span.start := by
  have scanned : lexemes "(f)(1)[2]; -y" = .ok Lexeme.accessed := by decide +kernel
  have read : Program.ofLexemes Lexeme.accessed.toList = .ok ⟨Program.accessed.statements, none⟩ := rfl
  have accepted : Program.ofSource "(f)(1)[2]; -y" = .ok .accessed := by
    rw [Program.ofSource, scanned]
    simp only [read]
    rfl
  obtain ⟨found, scanned', fits, apart⟩ := spans_nest _ _ accepted
  rw [scanned] at scanned'
  cases scanned'
  exact ⟨accepted, fun s present q inside => ⟨(fits s present q inside).1, (fits s present q inside).2.1⟩, apart⟩

end StackScript
