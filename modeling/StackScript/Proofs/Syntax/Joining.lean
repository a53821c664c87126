import StackScript.Proofs.Syntax.Rounds

-- A text that ends with a semicolon and has no errors is read in the same way in front of any other, and the other one behind
-- it as if it stood alone.
namespace StackScript
namespace Parsing

-- Behind a semicolon a statement is over, whatever comes.
theorem statement_sealed {depth : Nat} {c d : Cursor} {s : Stmt} {ls : List Lexeme} (deep : 8 * c.tokens.length + 3 ≤ depth)
    (run : statement depth c = .ok s d) (passes : c.Passes ls d)
    (sealed : ls.getLast?.map Lexeme.token = some .semicolon) (further : Nat) (rest : List Lexeme) :
    statement depth (c.facing further (ls ++ rest)) = .ok s (d.facing further rest) := by
  have reads := (faithful depth).sentence c deep
  unfold Reads at reads
  rw [statement_closed] at run ⊢
  cases here : sentence depth c with
  | error h e =>
    rw [closed_error here] at run
    cases run
  | ok s' e =>
    rw [closed_ok here] at run
    rw [here] at reads
    obtain ⟨ts, passed, spelled⟩ := reads
    obtain ⟨ms, passes', -, again⟩ := local_ok ((steady (Nat.le_refl depth)).sentence c) here
    by_cases next : e.peek? = some .semicolon
    · rw [if_pos next] at run
      cases run
      obtain ⟨place, left, next⟩ := peek_cons next
      obtain ⟨_, position, previous⟩ := e
      cases next
      have whole : c.Passes (ms ++ [⟨.semicolon, place⟩]) ⟨left, position + 1, place⟩ := passes'.trans (.next .nil)
      cases passes.unique whole
      have there := again further (⟨.semicolon, place⟩ :: rest) .cons
      have same : position + further + 1 = position + 1 + further := Nat.add_right_comm _ _ _
      rw [List.append_assoc]
      refine (closed_ok there).trans ?_
      change EStateM.Result.ok s (⟨rest, position + further + 1, place⟩ : Cursor) = _
      rw [same]
      rfl
    · rw [if_neg next] at run
      cases run
      -- A statement without a semicolon does not end with one.
      have same : ls.map Lexeme.token = ts := by
        rw [Cursor.tokens, passes.rest, List.map_append] at passed
        exact List.append_cancel_right passed
      rw [← List.getLast?_map, same] at sealed
      exact absurd sealed spelled.last

-- What does not look back at what is behind when a lexeme is next, but for where it stands when it fails at once.
def Fresh (x : Parsing α) : Prop := ∀ l rest n p q, x ⟨l :: rest, n, q⟩ = x ⟨l :: rest, n, p⟩ ∨
  ∃ h, x ⟨l :: rest, n, p⟩ = .error h ⟨l :: rest, n, p⟩ ∧ x ⟨l :: rest, n, q⟩ = .error h ⟨l :: rest, n, q⟩

variable {α β : Type} {x : Parsing β} {f : β → Parsing α}

theorem fresh_bind (first : Fresh x) : Fresh (x >>= f) := by
  intro l rest n p q
  simp only [bind, EStateM.bind]
  rcases first l rest n p q with same | ⟨h, one, two⟩
  · exact .inl (by rw [same])
  · exact .inr ⟨h, by rw [one], by rw [two]⟩

theorem fresh_exhausted : Fresh (throw .exhausted : Parsing α) := fun _ _ _ _ _ => .inr ⟨_, rfl, rfl⟩

theorem fresh_refuse (problem : Misread) : Fresh (refuse problem : Parsing α) := fun _ _ _ _ _ => .inr ⟨_, rfl, rfl⟩

theorem fresh_advance : Fresh advance := fun _ _ _ _ _ => .inl rfl

theorem fresh_begun (fuel : Nat) (start : Span) (t : Token) : Fresh (begun fuel start t) := by
  cases t with
  | identifier | integer | float | string | trueWord | falseWord | bang | minus | leftParen | ifWord | fnWord
  | leftBracket | leftBrace => exact fresh_bind fresh_advance
  | _ => exact fresh_refuse _

theorem fresh_operand (fuel : Nat) : Fresh (operand fuel) := by
  cases fuel with
  | zero => exact fresh_exhausted
  | succ fuel =>
    rintro ⟨t, place⟩ rest n p q
    rw [operand_begun, operand_begun]
    exact fresh_begun fuel place t _ _ _ _ _

theorem fresh_expression (fuel level : Nat) : Fresh (expression fuel level) := by
  cases fuel with
  | zero => exact fresh_exhausted
  | succ fuel => exact fresh_bind (fresh_operand fuel)

theorem fresh_declared (fuel : Nat) (start : Span) (mutability : Mutability) : Fresh (declared fuel start mutability) := by
  cases fuel with
  | zero => exact fresh_exhausted
  | succ fuel => exact fresh_bind fresh_advance

theorem fresh_sentence (fuel : Nat) : Fresh (sentence fuel) := by
  cases fuel with
  | zero => exact fresh_exhausted
  | succ fuel =>
    rintro ⟨t, place⟩ rest n p q
    have other : Fresh (do let value ← expression fuel 0; return Stmt.expression (← spanFrom place) value) :=
      fresh_bind (fresh_expression fuel 0)
    cases t with
    | letWord => exact fresh_declared fuel place .fixed _ _ _ _ _
    | varWord => exact fresh_declared fuel place .assignable _ _ _ _ _
    | returnWord => exact .inl rfl
    | identifier name =>
      cases rest with
      | nil => exact other _ _ _ _ _
      | cons l rest =>
        obtain ⟨t, place'⟩ := l
        cases t with
        | assign => exact .inl rfl
        | _ => exact other _ _ _ _ _
    | _ => exact other _ _ _ _ _

theorem fresh_statement (fuel : Nat) : Fresh (statement fuel) := by
  rw [statement_closed]
  exact fresh_bind (fresh_sentence fuel)

end Parsing

theorem Cursor.Passes.restart {l m : Lexeme} {rest ls : List Lexeme} {n : Nat} {p q : Span} {d : Cursor}
    (passes : Passes ⟨l :: rest, n, p⟩ (m :: ls) d) : Passes ⟨l :: rest, n, q⟩ (m :: ls) d := by
  cases passes with
  | next inner => exact .next inner

namespace Rounds

variable {depth found : Nat} {c last : Cursor} {rounds : List Round}

-- The rounds do not depend on what is behind.
theorem restart {b : List Lexeme} {n : Nat} {p : Span} (run : Rounds depth found ⟨b, n, p⟩ rounds last) (q : Span) :
    ∃ last', Rounds depth found ⟨b, n, q⟩ rounds last' := by
  cases b with
  | nil =>
    cases run with
    | ended => exact ⟨_, .ended (.inl rfl)⟩
    | read goes => exact absurd rfl goes
    | failed goes => exact absurd rfl goes
  | cons l rest =>
    cases run with
    | ended stops => exact ⟨_, .ended stops⟩
    | @read _ _ d _ s passed rounds goes few run passes others =>
      rcases Parsing.fresh_statement depth l rest n p q with same | ⟨h, one, -⟩
      · obtain ⟨ls, passes', nonempty⟩ := Parsing.statement_passes run
        cases passes.unique passes'
        obtain ⟨m, ls, rfl⟩ := List.exists_cons_of_ne_nil nonempty
        exact ⟨_, .read goes few (same.trans run) passes.restart others⟩
      · rw [one] at run
        cases run
    | @failed _ _ d _ e passed skipped rounds goes few run passes skips others =>
      rcases Parsing.fresh_statement depth l rest n p q with same | ⟨h, one, two⟩
      · obtain ⟨ls, passes', -⟩ := Parsing.statement_fails (same.trans run)
        have whole : ls = passed := List.append_cancel_right (passes'.rest.symm.trans passes.rest)
        rw [whole] at passes'
        exact ⟨_, .failed goes few (same.trans run) passes' skips others⟩
      · rw [one] at run
        cases run
        cases passes.unique .nil
        obtain ⟨ls, skips', nonempty⟩ := Cursor.resumed_passes ⟨l :: rest, n, p⟩
        cases skips.unique skips'
        obtain ⟨m, ls, rfl⟩ := List.exists_cons_of_ne_nil (nonempty goes)
        exact ⟨_, .failed goes few two .nil skips.restart others⟩

theorem join (run : Rounds depth found c rounds last) (deep : 8 * c.rest.length + 3 ≤ depth) (few : found < Parsed.maxErrors)
    (clean : rounds.filterMap Round.error? = []) (sealed : ∀ l ∈ c.rest.getLast?, l.token = .semicolon) {b : List Lexeme}
    {more : List Round} {last' : Cursor} (others : Rounds depth found (last.facing 0 b) more last') :
    Rounds depth found (c.facing 0 (c.rest ++ b)) (rounds ++ more) last' := by
  induction run with
  | @ended found c stops =>
    rcases stops with done | many
    · rw [done]
      exact others
    · exact absurd few (Nat.not_lt.mpr many)
  | @read found c d last s passed rounds goes _ run passes _ ih =>
    have shorter := passes.length
    have again : Parsing.statement depth (c.facing 0 (passed ++ (d.rest ++ b))) = .ok s (d.facing 0 (d.rest ++ b)) := by
      by_cases left : d.rest = []
      · apply Parsing.statement_sealed (by rwa [Cursor.tokens, List.length_map]) run passes
        rw [passes.rest, left, List.append_nil] at goes sealed
        obtain ⟨l, final⟩ := Option.ne_none_iff_exists'.mp (mt List.getLast?_eq_none_iff.mp goes)
        rw [final, Option.map_some, sealed l final]
      · obtain ⟨l, rest, next⟩ := List.exists_cons_of_ne_nil left
        refine Parsing.statement_again run (Nat.le_refl depth) passes ?_ 0
        rw [next]
        exact .cons
    have sealed' : ∀ l ∈ d.rest.getLast?, l.token = .semicolon := by
      intro l final
      apply sealed
      rw [passes.rest, List.getLast?_append, final]
      rfl
    have onward := ih (by omega) few clean sealed' others
    have goes' : passed ++ (d.rest ++ b) ≠ [] := by
      rw [← List.append_assoc, ← passes.rest]
      exact List.append_ne_nil_of_left_ne_nil goes b
    rw [passes.rest, List.append_assoc]
    exact .read goes' few again (passes.facing 0 (d.rest ++ b)) onward
  | failed => cases clean

end Rounds

-- A text with no errors that ends with a semicolon can be read apart from what comes behind it: together they have the
-- statements of the one and then those of the other, and the errors of the other, further on by the length of the one.
theorem parsed_append (a b : List Lexeme) (clean : (Parsed.ofLexemes a).errors = [])
    (sealed : a.getLast?.map Lexeme.token = some .semicolon) :
    Parsed.ofLexemes (a ++ b) = ⟨(Parsed.ofLexemes a).statements ++ (Parsed.ofLexemes b).statements,
      (Parsed.ofLexemes b).errors.map (ParseError.further a.length)⟩ := by
  obtain ⟨rounds, last, run⟩ := Parsed.rounds a
  obtain ⟨more, last', others⟩ := Parsed.rounds b
  rw [run.parsed] at clean ⊢
  rw [others.parsed]
  have size : (a ++ b).length = a.length + b.length := List.length_append
  have clean : rounds.filterMap Round.error? = [] := clean
  -- All of the first text was read, so that the other one is behind it.
  have done : last.rest = [] := run.finished (by rw [clean]; decide)
  have position : last.position = a.length := by
    have place := run.passes.position
    have length := run.passes.length
    rw [done] at length
    exact place.trans ((Nat.zero_add _).trans length.symm)
  have less : Parsed.depthFor a.length ≤ Parsed.depthFor (a ++ b).length := by unfold Parsed.depthFor; omega
  have less' : Parsed.depthFor b.length ≤ Parsed.depthFor (a ++ b).length := by unfold Parsed.depthFor; omega
  obtain ⟨last'', onward⟩ := (others.further less' a.length).restart last.previous
  have joined : Rounds (Parsed.depthFor (a ++ b).length) 0 (.start (a ++ b))
      (rounds ++ more.map (Round.further a.length)) last'' := by
    refine (run.deeper less).join ?_ (by decide) clean ?_ (b := b) ?_
    · change 8 * a.length + 3 ≤ 8 * (a ++ b).length + 8
      omega
    · intro l final
      change a.getLast? = some l at final
      rw [final] at sealed
      exact Option.some.inj sealed
    · change Rounds _ _ ⟨b, last.position + 0, last.previous⟩ _ _
      rw [position, Nat.add_comm]
      exact onward
  rw [joined.parsed, List.filterMap_append, List.filterMap_append, clean, Round.statements_further, Round.errors_further]
  rfl

-- let x = 1; and then let; y
def Lexeme.declares : List Lexeme :=
  [⟨.letWord, ⟨0, 3⟩⟩, ⟨.identifier "x", ⟨4, 5⟩⟩, ⟨.assign, ⟨6, 7⟩⟩, ⟨.integer 1, ⟨8, 9⟩⟩, ⟨.semicolon, ⟨9, 10⟩⟩]

def Lexeme.broken : List Lexeme :=
  [⟨.letWord, ⟨11, 14⟩⟩, ⟨.semicolon, ⟨14, 15⟩⟩, ⟨.identifier "y", ⟨16, 17⟩⟩]

theorem parsed_append_broken : (Parsed.ofLexemes (Lexeme.declares ++ Lexeme.broken)).errors.map ParseError.position = [6] ∧
    Parsed.ofLexemes (Lexeme.declares ++ Lexeme.broken) =
      ⟨(Parsed.ofLexemes Lexeme.declares).statements ++ (Parsed.ofLexemes Lexeme.broken).statements,
        (Parsed.ofLexemes Lexeme.broken).errors.map (ParseError.further 5)⟩ :=
  ⟨rfl, parsed_append Lexeme.declares Lexeme.broken rfl rfl⟩

end StackScript
