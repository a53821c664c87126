import Mathlib.Data.List.Pairwise
import StackScript.Proofs.Syntax.Accepted
import StackScript.Proofs.Syntax.Steady

-- A text is read in rounds: each gives a statement, or an error and the lexemes that are skipped behind it. Every round passes
-- some lexemes, so that the errors stand one behind the other, and reading ends at the end of the text or with the last error
-- that is allowed.
namespace StackScript

inductive Round where
  | read (s : Stmt) (passed : List Lexeme)
  | failed (e : ParseError) (passed skipped : List Lexeme)

namespace Round

def lexemes : Round → List Lexeme
  | read _ passed => passed
  | failed _ passed skipped => passed ++ skipped

def statement? : Round → Option Stmt
  | read s _ => some s
  | failed .. => none

def error? : Round → Option ParseError
  | read .. => none
  | failed e .. => some e

def further (n : Nat) : Round → Round
  | read s passed => read s passed
  | failed e passed skipped => failed (e.further n) passed skipped

theorem further_zero (r : Round) : r.further 0 = r := by
  cases r <;> rfl

@[simp] theorem statement_further (n : Nat) (r : Round) : (r.further n).statement? = r.statement? := by
  cases r <;> rfl

@[simp] theorem error_further (n : Nat) (r : Round) : (r.further n).error? = r.error?.map (ParseError.further n) := by
  cases r <;> rfl

theorem statements_further (n : Nat) (rounds : List Round) :
    (rounds.map (further n)).filterMap statement? = rounds.filterMap statement? := by
  rw [List.filterMap_map]
  exact congrArg (fun f => rounds.filterMap f) (funext (statement_further n))

theorem errors_further (n : Nat) (rounds : List Round) :
    (rounds.map (further n)).filterMap error? = (rounds.filterMap error?).map (ParseError.further n) := by
  rw [List.filterMap_map, List.map_filterMap]
  exact congrArg (fun f => rounds.filterMap f) (funext (error_further n))

theorem length_le {rounds : List Round} (nonempty : ∀ r ∈ rounds, r.lexemes ≠ []) :
    rounds.length ≤ (rounds.flatMap lexemes).length := by
  induction rounds with
  | nil => exact Nat.le_refl _
  | cons r rest ih =>
    obtain ⟨here, others⟩ := List.forall_mem_cons.mp nonempty
    have one := List.length_pos_iff.mpr here
    have more := ih others
    rw [List.flatMap_cons, List.length_append, List.length_cons]
    omega

end Round

def Cursor.resumed (c : Cursor) : Cursor := .resync 0 c.rest c.position c.previous

-- The rounds from one place to another, after some errors. They end where no lexeme is left and where no further error is
-- allowed, and nowhere else.
inductive Rounds (depth : Nat) : (found : Nat) → Cursor → List Round → Cursor → Prop where
  | ended {found : Nat} {c : Cursor} (stops : c.rest = [] ∨ Parsed.maxErrors ≤ found) : Rounds depth found c [] c
  | read {found : Nat} {c d last : Cursor} {s : Stmt} {passed : List Lexeme} {rounds : List Round} (goes : c.rest ≠ [])
      (few : found < Parsed.maxErrors) (run : Parsing.statement depth c = .ok s d) (passes : c.Passes passed d)
      (others : Rounds depth found d rounds last) : Rounds depth found c (.read s passed :: rounds) last
  | failed {found : Nat} {c d last : Cursor} {e : ParseError} {passed skipped : List Lexeme} {rounds : List Round}
      (goes : c.rest ≠ []) (few : found < Parsed.maxErrors) (run : Parsing.statement depth c = .error (.error e) d)
      (passes : c.Passes passed d) (skips : d.Passes skipped d.resumed)
      (others : Rounds depth (found + 1) d.resumed rounds last) :
      Rounds depth found c (.failed e passed skipped :: rounds) last

namespace Cursor

-- Skipping passes lexemes, and at least the next one.
theorem resync_passes (depth : Nat) (rest : List Lexeme) (position : Nat) (previous : Span) :
    ∃ ls, Passes ⟨rest, position, previous⟩ ls (resync depth rest position previous) ∧ (rest ≠ [] → ls ≠ []) := by
  induction rest generalizing depth position previous with
  | nil => exact ⟨[], .nil, id⟩
  | cons l rest ih =>
    have onward (depth : Nat) : ∃ ls, Passes ⟨l :: rest, position, previous⟩ ls (resync depth rest (position + 1) l.span) ∧
        (l :: rest ≠ [] → ls ≠ []) := by
      obtain ⟨ls, passes, -⟩ := ih depth (position + 1) l.span
      exact ⟨l :: ls, .next passes, fun _ => List.cons_ne_nil _ _⟩
    rw [resync]
    split
    · exact onward _
    · exact onward _
    · split
      · exact ⟨[l], .next .nil, fun _ => List.cons_ne_nil _ _⟩
      · exact onward _
    · exact onward _

theorem resumed_passes (c : Cursor) : ∃ ls, c.Passes ls c.resumed ∧ (c.rest ≠ [] → ls ≠ []) :=
  resync_passes 0 c.rest c.position c.previous

theorem resync_further (depth n : Nat) (rest : List Lexeme) (position : Nat) (previous : Span) :
    resync depth rest (position + n) previous =
      (resync depth rest position previous).facing n (resync depth rest position previous).rest := by
  induction rest generalizing depth position previous with
  | nil => rfl
  | cons l rest ih =>
    have onward (depth : Nat) : resync depth rest (position + n + 1) l.span =
        (resync depth rest (position + 1) l.span).facing n (resync depth rest (position + 1) l.span).rest := by
      rw [Nat.add_right_comm, ih]
    rw [resync, resync]
    split
    · exact onward _
    · exact onward _
    · split
      · rw [Nat.add_right_comm]
        rfl
      · exact onward _
    · exact onward _

end Cursor

namespace Parsing

variable {depth more : Nat} {c d : Cursor} {s : Stmt} {e : ParseError} {ls rest : List Lexeme}

theorem statement_passes (run : statement depth c = .ok s d) : ∃ ls, c.Passes ls d ∧ ls ≠ [] := by
  obtain ⟨ls, passes, nonempty, -⟩ := local_ok ((steady (Nat.le_refl depth)).statement c) run
  exact ⟨ls, passes, List.length_pos_iff.mp nonempty⟩

theorem statement_fails (run : statement depth c = .error (.error e) d) : ∃ ls, c.Passes ls d ∧ e = d.error e.problem := by
  obtain ⟨ls, passes, -, here, -⟩ := local_error ((steady (Nat.le_refl depth)).statement c) run
  exact ⟨ls, passes, here⟩

theorem statement_again (run : statement depth c = .ok s d) (deeper : depth ≤ more) (passes : c.Passes ls d)
    (instead : Instead d.rest rest) (further : Nat) :
    statement more (c.facing further (ls ++ rest)) = .ok s (d.facing further rest) :=
  local_again ((steady deeper).statement c) run passes instead further

theorem statement_fails_again (run : statement depth c = .error (.error e) d) (deeper : depth ≤ more)
    (passes : c.Passes ls d) (same : rest.head? = d.rest.head?) (further : Nat) :
    statement more (c.facing further (ls ++ rest)) = .error (.error (e.further further)) (d.facing further rest) :=
  local_fails ((steady deeper).statement c) run passes same further

end Parsing

namespace Rounds

variable {depth found : Nat} {c last : Cursor} {rounds : List Round}

theorem nonempty (run : Rounds depth found c rounds last) : ∀ r ∈ rounds, r.lexemes ≠ [] := by
  induction run with
  | ended => simp
  | read _ _ run passes _ ih =>
    obtain ⟨ls, passes', nonempty⟩ := Parsing.statement_passes run
    cases passes.unique passes'
    exact List.forall_mem_cons.mpr ⟨nonempty, ih⟩
  | @failed _ c d _ _ passed skipped _ goes _ _ passes skips _ ih =>
    refine List.forall_mem_cons.mpr ⟨?_, ih⟩
    obtain ⟨ls, skips', nonempty⟩ := d.resumed_passes
    cases skips.unique skips'
    intro nothing
    obtain ⟨rfl, rfl⟩ := List.append_eq_nil_iff.mp nothing
    cases passes.of_nil
    exact nonempty goes rfl

theorem passes (run : Rounds depth found c rounds last) : c.Passes (rounds.flatMap Round.lexemes) last := by
  induction run with
  | ended => exact .nil
  | read _ _ _ passes _ ih => exact passes.trans ih
  | failed _ _ _ passes skips _ ih => exact (passes.trans skips).trans ih

theorem length (run : Rounds depth found c rounds last) : rounds.length ≤ c.rest.length := by
  have counted := Round.length_le run.nonempty
  have whole := run.passes.length
  omega

-- Errors stand where lexemes are left or at the end, each behind the ones before it.
theorem errors_bounded (run : Rounds depth found c rounds last) :
    ∀ e ∈ rounds.filterMap Round.error?, c.position ≤ e.position ∧ e.position ≤ c.position + c.rest.length := by
  induction run with
  | ended => simp
  | read _ _ _ passes _ ih =>
    intro e present
    have bounds := ih e present
    have length := passes.length
    have position := passes.position
    omega
  | @failed _ c d _ e _ _ _ _ _ run passes skips _ ih =>
    obtain ⟨-, -, here⟩ := Parsing.statement_fails run
    have place : e.position = d.position := congrArg ParseError.position here
    have length := passes.length
    have position := passes.position
    have length' := skips.length
    have position' := skips.position
    intro e' present
    rcases List.mem_cons.mp present with rfl | later
    · omega
    · have bounds := ih e' later
      omega

theorem errors_increasing (run : Rounds depth found c rounds last) :
    (rounds.filterMap Round.error?).Pairwise fun a b => a.position < b.position := by
  induction run with
  | ended => simp
  | read _ _ _ _ _ ih => exact ih
  | @failed _ c d _ e _ skipped rounds _ _ run _ skips others ih =>
    obtain ⟨-, -, here⟩ := Parsing.statement_fails run
    have place : e.position = d.position := congrArg ParseError.position here
    refine List.pairwise_cons.mpr ⟨?_, ih⟩
    intro e' later
    have bounds := others.errors_bounded e' later
    have position := skips.position
    -- Where an error is the last lexeme's, nothing is left for another.
    by_cases left : d.rest = []
    · have done : rounds = [] := List.length_eq_zero_iff.mp (Nat.le_zero.mp (by
        have length := skips.length
        have all := others.length
        rw [left, List.length_nil] at length
        omega))
      rw [done] at later
      cases later
    · obtain ⟨ls, skips', nonempty⟩ := d.resumed_passes
      cases skips.unique skips'
      have passed := List.length_pos_iff.mpr (nonempty left)
      omega

theorem errors_limited (run : Rounds depth found c rounds last) (few : found ≤ Parsed.maxErrors) :
    found + (rounds.filterMap Round.error?).length ≤ Parsed.maxErrors := by
  induction run with
  | ended => exact few
  | read _ _ _ _ _ ih => exact ih few
  | @failed found c d _ e _ _ rounds _ fewer _ _ _ _ ih =>
    have later := ih fewer
    change found + ((rounds.filterMap Round.error?).length + 1) ≤ _
    omega

theorem finished (run : Rounds depth found c rounds last)
    (few : found + (rounds.filterMap Round.error?).length < Parsed.maxErrors) : last.rest = [] := by
  induction run with
  | ended stops =>
    rcases stops with done | many
    · exact done
    · exact absurd few (Nat.not_lt.mpr many)
  | read _ _ _ _ _ ih => exact ih few
  | @failed found _ _ _ _ _ _ rounds _ _ _ _ _ _ ih =>
    apply ih
    change found + ((rounds.filterMap Round.error?).length + 1) < _ at few
    omega

theorem further (run : Rounds depth found c rounds last) {depth' : Nat} (deeper : depth ≤ depth') (n : Nat) :
    Rounds depth' found (c.facing n c.rest) (rounds.map (Round.further n)) (last.facing n last.rest) := by
  have onward {c d : Cursor} {ls : List Lexeme} (passes : c.Passes ls d) :
      (c.facing n c.rest).Passes ls (d.facing n d.rest) := by
    have there := passes.facing n d.rest
    rwa [← passes.rest] at there
  induction run with
  | ended stops => exact .ended stops
  | @read found c d last s passed rounds goes few run passes others ih =>
    have here := Parsing.statement_again run deeper passes (.same _) n
    rw [← passes.rest] at here
    exact .read goes few here (onward passes) ih
  | @failed found c d last e passed skipped rounds goes few run passes skips others ih =>
    have here := Parsing.statement_fails_again run deeper passes rfl n
    rw [← passes.rest] at here
    have resumed : (d.facing n d.rest).resumed = d.resumed.facing n d.resumed.rest := Cursor.resync_further _ _ _ _ _
    refine .failed goes few here (onward passes) ?_ ?_
    · rw [resumed]
      exact onward skips
    · rw [resumed]
      exact ih

theorem deeper (run : Rounds depth found c rounds last) {depth' : Nat} (deeper : depth ≤ depth') :
    Rounds depth' found c rounds last := by
  have again := run.further deeper 0
  rw [List.map_congr_left fun r _ => r.further_zero, List.map_id'] at again
  exact again

-- What is collected is what the rounds give, and more fuel than there are rounds changes nothing.
theorem collect (run : Rounds depth found c rounds last) {fuel : Nat} (enough : rounds.length < fuel)
    (statements : List Stmt) (errors : List ParseError) (known : errors.length = found) :
    Parsed.collect depth fuel statements errors c =
      ⟨statements.reverse ++ rounds.filterMap Round.statement?, errors.reverse ++ rounds.filterMap Round.error?⟩ := by
  induction run generalizing fuel statements errors with
  | ended stops =>
    obtain ⟨fuel, rfl⟩ := Nat.exists_eq_add_one.mpr enough
    rw [Parsed.collect, if_pos (by simpa [known] using stops)]
    simp
  | read goes few run _ _ ih =>
    obtain ⟨fuel, rfl⟩ := Nat.exists_eq_add_one.mpr (Nat.zero_lt_of_lt enough)
    rw [Parsed.collect, if_neg (by simpa [known] using And.intro goes few), run]
    simp only
    rw [ih (Nat.lt_of_succ_lt_succ enough) _ _ known]
    simp [List.filterMap_cons, Round.statement?, Round.error?]
  | failed goes few run _ _ _ ih =>
    obtain ⟨fuel, rfl⟩ := Nat.exists_eq_add_one.mpr (Nat.zero_lt_of_lt enough)
    rw [Parsed.collect, if_neg (by simpa [known] using And.intro goes few), run]
    simp only
    rw [← Cursor.resumed, ih (Nat.lt_of_succ_lt_succ enough) _ _ (by rw [List.length_cons, known])]
    simp [List.filterMap_cons, Round.statement?, Round.error?]

end Rounds

theorem exists_rounds {depth : Nat} (found : Nat) (c : Cursor) (deep : 8 * c.rest.length + 3 ≤ depth) :
    ∃ rounds last, Rounds depth found c rounds last := by
  by_cases stops : c.rest = [] ∨ Parsed.maxErrors ≤ found
  · exact ⟨[], c, .ended stops⟩
  · obtain ⟨goes, few⟩ := not_or.mp stops
    have few := Nat.not_le.mp few
    have reads := (Parsing.faithful depth).statement c (by rwa [Cursor.tokens, List.length_map])
    unfold Parsing.Reads at reads
    cases run : Parsing.statement depth c with
    | ok s d =>
      obtain ⟨ls, passes, nonempty⟩ := Parsing.statement_passes run
      have passed := List.length_pos_iff.mpr nonempty
      have length := passes.length
      obtain ⟨rounds, last, others⟩ : ∃ rounds last, Rounds depth found d rounds last := exists_rounds found d (by omega)
      exact ⟨_, last, .read goes few run passes others⟩
    | error h d =>
      cases h with
      | exhausted =>
        rw [run] at reads
        exact reads.elim
      | error e =>
        obtain ⟨ls, passes, -⟩ := Parsing.statement_fails run
        obtain ⟨ms, skips, nonempty⟩ := d.resumed_passes
        have shorter : d.resumed.rest.length < c.rest.length := by
          have length := passes.length
          have length' := skips.length
          cases ls with
          | cons l ls =>
            rw [List.length_cons] at length
            omega
          | nil =>
            cases passes.of_nil
            have passed := List.length_pos_iff.mpr (nonempty goes)
            omega
        obtain ⟨rounds, last, others⟩ : ∃ rounds last, Rounds depth (found + 1) d.resumed rounds last :=
          exists_rounds (found + 1) d.resumed (by omega)
        exact ⟨_, last, .failed goes few run passes skips others⟩
termination_by c.rest.length

theorem Parsed.rounds (lexemes : List Lexeme) :
    ∃ rounds last, Rounds (depthFor lexemes.length) 0 (.start lexemes) rounds last :=
  exists_rounds 0 _ (Nat.add_le_add_left (by decide) _)

-- Whatever depth lexemes were read with in rounds, it gave what they are read as.
theorem Rounds.parsed {depth : Nat} {lexemes : List Lexeme} {rounds : List Round} {last : Cursor}
    (run : Rounds depth 0 (.start lexemes) rounds last) :
    Parsed.ofLexemes lexemes = ⟨rounds.filterMap Round.statement?, rounds.filterMap Round.error?⟩ := by
  have collected {depth : Nat} {rounds : List Round} {last : Cursor} (run : Rounds depth 0 (.start lexemes) rounds last) :=
    run.collect (Nat.lt_succ_of_le run.length) [] [] rfl
  obtain ⟨rounds', last', run'⟩ := Parsed.rounds lexemes
  calc
    Parsed.ofLexemes lexemes = _ := collected run'
    _ = _ := (collected (run'.deeper (Nat.le_max_right depth _))).symm
    _ = _ := collected (run.deeper (Nat.le_max_left depth _))

-- Reading ends for any lexemes, and would with any more fuel and depth. Every round of it, whether it gives a statement or an
-- error, passes a lexeme at least; what was passed by the statements, by those that failed and in skipping is the whole text,
-- unless the last error allowed was found. There are at most 20 errors, each behind the ones before it, and none behind the end.
theorem recovery_progresses (lexemes : List Lexeme) : ∃ rounds last,
    Rounds (Parsed.depthFor lexemes.length) 0 (.start lexemes) rounds last ∧
    Parsed.ofLexemes lexemes = ⟨rounds.filterMap Round.statement?, rounds.filterMap Round.error?⟩ ∧
    (∀ depth fuel, Parsed.depthFor lexemes.length ≤ depth → lexemes.length < fuel →
      Parsed.collect depth fuel [] [] (.start lexemes) = Parsed.ofLexemes lexemes) ∧
    (∀ r ∈ rounds, r.lexemes ≠ []) ∧
    ((Parsed.ofLexemes lexemes).errors.length < 20 → rounds.flatMap Round.lexemes = lexemes) ∧
    (Parsed.ofLexemes lexemes).errors.length ≤ 20 ∧
    ((Parsed.ofLexemes lexemes).errors.Pairwise fun a b => a.position < b.position) ∧
    ∀ e ∈ (Parsed.ofLexemes lexemes).errors, e.position ≤ lexemes.length := by
  obtain ⟨rounds, last, run⟩ := Parsed.rounds lexemes
  have whole := run.parsed
  refine ⟨rounds, last, run, whole, ?_, run.nonempty, ?_, ?_, ?_, ?_⟩
  · intro depth fuel deeper enough
    rw [whole]
    exact (run.deeper deeper).collect (Nat.lt_of_le_of_lt run.length enough) [] [] rfl
  · rw [whole]
    intro few
    have passed := run.passes.rest
    rw [run.finished (by rwa [Nat.zero_add]), List.append_nil] at passed
    exact passed.symm
  · rw [whole]
    have limited := run.errors_limited (Nat.zero_le _)
    rwa [Nat.zero_add] at limited
  · rw [whole]
    exact run.errors_increasing
  · rw [whole]
    intro e present
    have bounds := run.errors_bounded e present
    exact Nat.le_trans bounds.2 (Nat.le_of_eq (Nat.zero_add _))

-- A declaration without a name, and an expression after it.
def Lexeme.nameless : List Lexeme :=
  [⟨.letWord, ⟨0, 3⟩⟩, ⟨.assign, ⟨4, 5⟩⟩, ⟨.integer 1, ⟨6, 7⟩⟩, ⟨.semicolon, ⟨7, 8⟩⟩, ⟨.identifier "y", ⟨9, 10⟩⟩]

theorem recovery_progresses_nameless : ∃ rounds last,
    Rounds (Parsed.depthFor Lexeme.nameless.length) 0 (.start Lexeme.nameless) rounds last ∧
    (rounds.filterMap Round.error?).map ParseError.position = [1] ∧ (∀ r ∈ rounds, r.lexemes ≠ []) ∧
    rounds.flatMap Round.lexemes = Lexeme.nameless := by
  have errors : (Parsed.ofLexemes Lexeme.nameless).errors.map ParseError.position = [1] := rfl
  obtain ⟨rounds, last, run, parsed, -, progress, whole, -⟩ := recovery_progresses Lexeme.nameless
  refine ⟨rounds, last, run, ?_, progress, whole ?_⟩
  · rwa [parsed] at errors
  · rw [← List.length_map (f := ParseError.position), errors]
    decide

end StackScript
