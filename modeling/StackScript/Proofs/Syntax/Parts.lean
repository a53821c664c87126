import StackScript.Proofs.Token.Ordered
import StackScript.Syntax.Basic

-- The parts of a program, and how they lie in its lexemes: each from a first one to a last one, with the parts inside it one
-- behind the other between them.
namespace StackScript

inductive Part where
  | expression (e : Expr)
  | statement (s : Stmt)

namespace Part

def span : Part → Span
  | expression e => e.span
  | statement s => s.span

def ofPairs (pairs : List (Expr × Expr)) : List Part := pairs.flatMap fun p => [expression p.1, expression p.2]

def inner : Part → List Part
  | expression (.identifier ..) | expression (.integer ..) | expression (.float ..) | expression (.boolean ..)
  | expression (.string ..) => []
  | expression (.unary _ _ right) => [expression right]
  | expression (.binary _ _ left right) => [expression left, expression right]
  | expression (.conditional _ condition consequence alternative) =>
    expression condition :: (consequence ++ alternative.getD []).map statement
  | expression (.function _ _ _ body) => body.map statement
  | expression (.call _ callee arguments) => expression callee :: arguments.map expression
  | expression (.array _ elements) => elements.map expression
  | expression (.hash _ pairs) => ofPairs pairs
  | expression (.index _ target position) => [expression target, expression position]
  | statement (.declare _ _ _ value) | statement (.assign _ _ value) | statement (.returns _ value)
  | statement (.expression _ value) => [expression value]

-- A part, the parts inside it, and all that are inside these.
inductive Inside : Part → Part → Prop where
  | itself {q : Part} : Inside q q
  | deeper {q r s : Part} : r ∈ q.inner → Inside s r → Inside s q

theorem inner_placed (e : Expr) (s : Span) : (expression (e.placed s)).inner = (expression e).inner := by
  cases e <;> rfl

theorem inner_named (e : Expr) (name : String) : (expression (e.named name)).inner = (expression e).inner := by
  cases e <;> rfl

theorem span_placed (e : Expr) (s : Span) : (expression (e.placed s)).span = s := by
  cases e <;> rfl

theorem span_named (e : Expr) (name : String) : (expression (e.named name)).span = (expression e).span := by
  cases e <;> rfl

end Part

-- A range from the start of the first lexeme to the end of the last one.
structure Spans (s : Span) (ls : List Lexeme) : Prop where
  starts : ∃ l ∈ ls.head?, l.span.start = s.start
  stops : ∃ l ∈ ls.getLast?, l.span.stop = s.stop

-- Parts with other lexemes between them. What is inside a part lies in the lexemes of the part.
inductive Arranged : List Part → List Lexeme → Prop where
  | nil {ls : List Lexeme} : Arranged [] ls
  | next {q : Part} {others : List Part} {before here behind : List Lexeme} : Spans q.span here → Arranged q.inner here →
      Arranged others behind → Arranged (q :: others) (before ++ (here ++ behind))

structure Part.Covers (q : Part) (ls : List Lexeme) : Prop where
  span : Spans q.span ls
  inner : Arranged q.inner ls

section
variable {s t : Span} {q r : Part} {qs rs : List Part} {ls ms : List Lexeme}

namespace Ordered

theorem sublist (ordered : Ordered ls) (less : ms.Sublist ls) : Ordered ms :=
  ⟨fun l present => ordered.wide l (less.subset present), ordered.apart.sublist less⟩

theorem start_le (ordered : Ordered ls) {l m : Lexeme} (first : l ∈ ls.head?) (present : m ∈ ls) :
    l.span.start ≤ m.span.start := by
  obtain ⟨rest, rfl⟩ := List.head?_eq_some_iff.mp first
  rcases List.mem_cons.mp present with rfl | later
  · exact Nat.le_refl _
  · have wide := ordered.wide l List.mem_cons_self
    have apart := (List.pairwise_cons.mp ordered.apart).1 m later
    omega

theorem le_stop (ordered : Ordered ls) {l m : Lexeme} (last : l ∈ ls.getLast?) (present : m ∈ ls) :
    m.span.stop ≤ l.span.stop := by
  obtain ⟨front, rfl⟩ := List.getLast?_eq_some_iff.mp last
  rcases List.mem_append.mp present with earlier | here
  · have wide := ordered.wide l (List.mem_append_right _ List.mem_cons_self)
    have apart := (List.pairwise_append.mp ordered.apart).2.2 m earlier l List.mem_cons_self
    omega
  · rw [List.mem_singleton.mp here]

end Ordered

namespace Spans

theorem wide (spans : Spans s ls) (ordered : Ordered ls) : s.start < s.stop := by
  obtain ⟨l, first, starts⟩ := spans.starts
  obtain ⟨m, last, stops⟩ := spans.stops
  have here := ordered.wide m (List.mem_of_mem_getLast? last)
  have start := ordered.start_le first (List.mem_of_mem_getLast? last)
  omega

theorem contains (whole : Spans t ls) (ordered : Ordered ls) (less : ms.Sublist ls) (spans : Spans s ms) :
    t.start ≤ s.start ∧ s.stop ≤ t.stop := by
  obtain ⟨l, first, starts⟩ := whole.starts
  obtain ⟨m, last, stops⟩ := whole.stops
  obtain ⟨l', first', starts'⟩ := spans.starts
  obtain ⟨m', last', stops'⟩ := spans.stops
  have start := ordered.start_le first (less.subset (List.mem_of_mem_head? first'))
  have stop := ordered.le_stop last (less.subset (List.mem_of_mem_getLast? last'))
  omega

end Spans

namespace Arranged

theorem past (arranged : Arranged qs ls) (ms : List Lexeme) : Arranged qs (ms ++ ls) := by
  cases arranged with
  | nil => exact .nil
  | next spans inner others =>
    rw [← List.append_assoc]
    exact .next spans inner others

theorem append (first : Arranged qs ls) (next : Arranged rs ms) : Arranged (qs ++ rs) (ls ++ ms) := by
  induction first with
  | nil => exact next.past _
  | next spans inner _ _ ih =>
    rw [List.append_assoc, List.append_assoc]
    exact .next spans inner ih

theorem up (arranged : Arranged qs ls) (ms : List Lexeme) : Arranged qs (ls ++ ms) := by
  have nothing : Arranged [] ms := .nil
  have whole := arranged.append nothing
  rwa [List.append_nil] at whole

theorem inner (arranged : Arranged [q] ls) : Arranged q.inner ls := by
  cases arranged with
  | next _ inner _ => exact (inner.up _).past _

theorem like (arranged : Arranged [q] ls) (span : r.span = q.span) (inner : r.inner = q.inner) : Arranged [r] ls := by
  cases arranged with
  | next spans parts others => exact .next (span ▸ spans) (inner ▸ parts) others

theorem covered (arranged : Arranged qs ls) : ∀ q ∈ qs, ∃ here, here.Sublist ls ∧ q.Covers here := by
  induction arranged with
  | nil => simp
  | @next q others before here behind spans inner _ _ ih =>
    refine List.forall_mem_cons.mpr ⟨⟨here, ?_, spans, inner⟩, fun r present => ?_⟩
    · exact (List.sublist_append_left here behind).trans (List.sublist_append_right before _)
    · obtain ⟨there, less, covers⟩ := ih r present
      exact ⟨there, less.trans ((List.sublist_append_right here behind).trans (List.sublist_append_right before _)), covers⟩

theorem apart (arranged : Arranged qs ls) (ordered : Ordered ls) : qs.Pairwise fun a b => a.span.stop ≤ b.span.start := by
  induction arranged with
  | nil => exact .nil
  | @next q others before here behind spans _ rest _ ih =>
    have ordered := ordered.sublist (List.sublist_append_right before _)
    refine List.pairwise_cons.mpr ⟨?_, ih (ordered.sublist (List.sublist_append_right here behind))⟩
    intro r present
    obtain ⟨there, less, covers⟩ := rest.covered r present
    obtain ⟨l, last, stops⟩ := spans.stops
    obtain ⟨m, first, starts⟩ := covers.span.starts
    have apart := (List.pairwise_append.mp ordered.apart).2.2 l (List.mem_of_mem_getLast? last) m
      (less.subset (List.mem_of_mem_head? first))
    omega

end Arranged

namespace Part.Covers

theorem arranged (covers : q.Covers ls) : Arranged [q] ls := by
  have whole : Arranged [q] ([] ++ (ls ++ [])) := .next covers.span covers.inner .nil
  rwa [List.append_nil] at whole

theorem inside (covers : q.Covers ls) (inside : r.Inside q) : ∃ here, here.Sublist ls ∧ r.Covers here := by
  induction inside generalizing ls with
  | itself => exact ⟨ls, List.Sublist.refl ls, covers⟩
  | deeper present _ ih =>
    obtain ⟨here, less, covers⟩ := covers.inner.covered _ present
    obtain ⟨there, less', covers'⟩ := ih covers
    exact ⟨there, less'.trans less, covers'⟩

end Part.Covers

-- What the range of a part has to do with the lexemes of the text, and with the ranges of the parts inside it.
structure Part.Fits (ls : List Lexeme) (q : Part) : Prop where
  starts : ∃ l ∈ ls, q.span.start = l.span.start
  stops : ∃ l ∈ ls, q.span.stop = l.span.stop
  wide : q.span.start < q.span.stop
  contains : ∀ r ∈ q.inner, q.span.start ≤ r.span.start ∧ r.span.stop ≤ q.span.stop
  apart : q.inner.Pairwise fun a b => a.span.stop ≤ b.span.start

theorem Part.Covers.fits (covers : q.Covers ms) (ordered : Ordered ls) (less : ms.Sublist ls) : q.Fits ls := by
  have ordered := ordered.sublist less
  obtain ⟨l, first, starts⟩ := covers.span.starts
  obtain ⟨m, last, stops⟩ := covers.span.stops
  refine ⟨⟨l, less.subset (List.mem_of_mem_head? first), starts.symm⟩,
    ⟨m, less.subset (List.mem_of_mem_getLast? last), stops.symm⟩, covers.span.wide ordered, ?_, covers.inner.apart ordered⟩
  intro r present
  obtain ⟨here, less', covers'⟩ := covers.inner.covered r present
  exact covers.span.contains ordered less' covers'.span

end
end StackScript
