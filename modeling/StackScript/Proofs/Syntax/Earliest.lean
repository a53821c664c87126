import StackScript.Proofs.Syntax.Blind
import StackScript.Proofs.Syntax.Completion
import StackScript.Proofs.Syntax.Rounds

-- The first error is where a text can no longer become a program: up to there it can still be continued to one, and with the
-- lexeme at the error it cannot.
namespace StackScript
namespace Rounds

variable {depth found : Nat} {c last : Cursor} {rounds : List Round}

-- Up to the statement with the first error everything is read in the same way in front of anything that may stand there.
theorem until_error (run : Rounds depth found c rounds last) {e : ParseError} {later : List ParseError}
    (errors : rounds.filterMap Round.error? = e :: later) : ∃ ls c' d reads, c.Passes ls c' ∧ c'.rest ≠ [] ∧
      found < Parsed.maxErrors ∧ Parsing.statement depth c' = .error (.error e) d ∧ reads.filterMap Round.error? = [] ∧
      ∀ more new rounds' last', depth ≤ more → Instead c'.rest new → new ≠ [] →
        Rounds more found (c'.facing 0 new) rounds' last' →
        Rounds more found (c.facing 0 (ls ++ new)) (reads ++ rounds') last' := by
  induction run with
  | ended => cases errors
  | @failed found c d _ _ _ _ _ goes few run =>
    cases errors
    exact ⟨[], c, d, [], .nil, goes, few, run, rfl, fun _ _ _ _ _ _ _ others => others⟩
  | @read found c d _ s passed _ _ few run passes _ ih =>
    obtain ⟨ls, c', d', reads, passes', goes, -, fails, clean, again⟩ := ih errors
    refine ⟨passed ++ ls, c', d', .read s passed :: reads, passes.trans passes', goes, few, fails, clean, ?_⟩
    intro more new rounds' last' deeper instead nonempty others
    have behind : Instead d.rest (ls ++ new) := by
      rw [passes'.rest]
      exact instead.behind ls
    have here := Parsing.statement_again run deeper passes behind 0
    rw [List.append_assoc]
    refine .read ?_ few here (passes.facing 0 _) (again more new rounds' last' deeper instead nonempty others)
    exact List.append_ne_nil_of_right_ne_nil _ (List.append_ne_nil_of_right_ne_nil _ nonempty)

end Rounds

theorem Program.accepted_iff {lexemes : List Lexeme} :
    (∃ p, Program.ofLexemes lexemes = .ok p) ↔ (Parsed.ofLexemes lexemes).errors = [] := by
  rw [Program.ofLexemes, ← List.isEmpty_iff]
  cases (Parsed.ofLexemes lexemes).errors.isEmpty <;> simp

-- Whether lexemes make up a program does not depend on where they stand.
theorem Parsed.clean_tokens {ls ms : List Lexeme} (same : ls.map Lexeme.token = ms.map Lexeme.token)
    (clean : (ofLexemes ls).errors = []) : (ofLexemes ms).errors = [] := by
  have errors := congrArg Parsed.errors (ofLexemes_same same)
  rw [Parsed.unplaced, Parsed.unplaced, clean] at errors
  exact List.map_eq_nil_iff.mp errors.symm

section
variable {lexemes : List Lexeme} {e : ParseError} {later : List ParseError}

-- The statement with the first error, and what lexemes are read as that begin in the same way but go on there with others.
theorem Parsed.first_error (errors : (ofLexemes lexemes).errors = e :: later) : ∃ depth ls ms c d,
    lexemes = ls ++ ms ++ d.rest ∧ e.position = (ls ++ ms).length ∧ c.Passes ms d ∧
    Parsing.statement depth c = .error (.error e) d ∧
    ∀ more new rounds last, depth ≤ more → Instead c.rest new → new ≠ [] → Rounds more 0 (c.facing 0 new) rounds last →
      (ofLexemes (ls ++ new)).errors = rounds.filterMap Round.error? := by
  obtain ⟨rounds, last, run⟩ := Parsed.rounds lexemes
  rw [run.parsed] at errors
  obtain ⟨ls, c, d, reads, passes, -, -, fails, clean, again⟩ := run.until_error errors
  obtain ⟨ms, passes', here⟩ := Parsing.statement_fails fails
  refine ⟨_, ls, ms, c, d, (passes.trans passes').rest, ?_, passes', fails, ?_⟩
  · have place := (passes.trans passes').position
    rw [here]
    exact place.trans (Nat.zero_add _)
  · intro more new rounds last deeper instead some others
    have whole : Rounds more 0 (.start (ls ++ new)) _ _ := again more new rounds last deeper instead some others
    rw [whole.parsed]
    change (reads ++ rounds).filterMap Round.error? = _
    rw [List.filterMap_append, clean, List.nil_append]

theorem Parsed.error_continued (errors : (ofLexemes lexemes).errors = e :: later) :
    ∃ more, (ofLexemes (lexemes.take e.position ++ more)).errors = [] := by
  obtain ⟨depth, ls, ms, c, d, whole, position, passes, fails, again⟩ := first_error errors
  have taken : lexemes.take e.position = ls ++ ms := by rw [position, whole, List.take_left]
  -- Something can stand there instead of the end of the statement.
  have completes := Parsing.completes_statement (c := c) (Parsing.completing (Nat.le_refl (depth + 3)))
    (Parsing.steady (Nat.le_add_right depth 3))
  unfold Parsing.Completes at completes
  rw [fails] at completes
  obtain ⟨ms', passes', completed⟩ := completes
  cases passes.unique passes'
  obtain ⟨us, instead, nonempty, takes⟩ : ∃ us, Instead c.rest (ms ++ us) ∧ ms ++ us ≠ [] ∧
      Parsing.Takes (Parsing.statement (depth + 3)) (c.facing 0 (ms ++ us)) [] := by
    cases ms with
    | nil =>
      refine ⟨Lexeme.made [.identifier "x"], .inr (.cons rfl), List.cons_ne_nil _ _, ?_⟩
      exact Parsing.fills_statement depth _ [] .nil (List.append_nil _).symm
    | cons m ms =>
      obtain ⟨us, takes⟩ := completed (List.cons_ne_nil _ _)
      refine ⟨us, ?_, List.cons_ne_nil _ _, ?_⟩
      · rw [passes.rest]
        exact .cons
      · have takes := takes [] .nil
        rwa [List.append_nil] at takes
  obtain ⟨s, d', run, left⟩ := takes
  obtain ⟨passed, passes'', -⟩ := Parsing.statement_passes run
  refine ⟨us, ?_⟩
  rw [taken, List.append_assoc]
  exact again _ _ _ _ (Nat.le_add_right depth 3) instead nonempty (.read nonempty (by decide) run passes'' (.ended (.inl left)))

theorem Parsed.error_stays (errors : (ofLexemes lexemes).errors = e :: later) (inside : e.position < lexemes.length)
    (tail : List Lexeme) : (ofLexemes (lexemes.take (e.position + 1) ++ tail)).errors ≠ [] := by
  obtain ⟨depth, ls, ms, c, d, whole, position, passes, fails, again⟩ := first_error errors
  obtain ⟨l, rest, next⟩ : ∃ l rest, d.rest = l :: rest := by
    apply List.exists_cons_of_ne_nil
    intro ended
    rw [position, whole, ended, List.append_nil] at inside
    exact absurd inside (Nat.lt_irrefl _)
  have taken : lexemes.take (e.position + 1) = ls ++ ms ++ [l] := by
    rw [position, whole, next, List.append_cons _ l]
    exact List.take_left' List.length_append
  -- Depth enough for all that comes.
  obtain ⟨more, deep⟩ : ∃ more, more = depth + 8 * (tail.length + 1) + 3 := ⟨_, rfl⟩
  have deeper : depth ≤ more := by omega
  have fails' : Parsing.statement more (c.facing 0 (ms ++ l :: tail)) = .error (.error e) (d.facing 0 (l :: tail)) :=
    Parsing.statement_fails_again fails deeper passes (by rw [next]; rfl) 0
  obtain ⟨skipped, skips, -⟩ := (d.facing 0 (l :: tail)).resumed_passes
  have shorter : (d.facing 0 (l :: tail)).resumed.rest.length ≤ tail.length + 1 := by
    have length : tail.length + 1 = _ := skips.length
    omega
  obtain ⟨rounds, last, others⟩ : ∃ rounds last, Rounds more 1 (d.facing 0 (l :: tail)).resumed rounds last :=
    exists_rounds 1 _ (by omega)
  have nonempty : ms ++ l :: tail ≠ [] := List.append_ne_nil_of_right_ne_nil _ (List.cons_ne_nil _ _)
  have instead : Instead c.rest (ms ++ l :: tail) := by
    rw [passes.rest, next]
    exact Instead.cons.behind ms
  rw [taken, List.append_assoc, List.append_assoc]
  change (ofLexemes (ls ++ (ms ++ l :: tail))).errors ≠ []
  rw [again more _ _ _ deeper instead nonempty
    (.failed nonempty (by decide) fails' (passes.facing 0 (l :: tail)) skips others)]
  exact List.cons_ne_nil _ _

end

-- The first error is as early as it can be. The lexemes in front of it can be continued to a program; with the token at the
-- error, if it is not the end, they can not.
theorem first_error_earliest (lexemes : List Lexeme) (e : ParseError) (later : List ParseError)
    (errors : (Parsed.ofLexemes lexemes).errors = e :: later) :
    (∃ more p, Program.ofLexemes (lexemes.take e.position ++ more) = .ok p) ∧
    (e.position < lexemes.length → ∀ others : List Lexeme,
      (lexemes.take (e.position + 1)).map Lexeme.token <+: others.map Lexeme.token →
      ¬ ∃ p, Program.ofLexemes others = .ok p) := by
  constructor
  · obtain ⟨more, clean⟩ := Parsed.error_continued errors
    exact ⟨more, Program.accepted_iff.mpr clean⟩
  · rintro inside others ⟨tail, same⟩ accepted
    have tokens : others.map Lexeme.token =
        (lexemes.take (e.position + 1) ++ tail.map Token.lexeme).map Lexeme.token := by
      rw [← same, List.map_append, List.map_map]
      exact congrArg _ (List.map_id _).symm
    exact Parsed.error_stays errors inside _ (Parsed.clean_tokens tokens (Program.accepted_iff.mp accepted))

-- f(1, let x
def Lexeme.cut : List Lexeme :=
  Lexeme.made [.identifier "f", .leftParen, .integer 1, .comma, .letWord, .identifier "x"]

theorem first_error_earliest_cut :
    (Parsed.ofLexemes Lexeme.cut).errors = [⟨4, .unknown, .expression (some .letWord)⟩] ∧
    (∃ more p, Program.ofLexemes (Lexeme.cut.take 4 ++ more) = .ok p) ∧
    ∀ others : List Lexeme, (Lexeme.cut.take 5).map Lexeme.token <+: others.map Lexeme.token →
      ¬ ∃ p, Program.ofLexemes others = .ok p := by
  have errors : (Parsed.ofLexemes Lexeme.cut).errors = [⟨4, .unknown, .expression (some .letWord)⟩] := rfl
  obtain ⟨continued, settled⟩ := first_error_earliest _ _ _ errors
  exact ⟨errors, continued, settled (by decide)⟩

end StackScript
