import StackScript.Proofs.Syntax.Pieces

-- Reading passes lexemes one by one, and looks no further than at the next one. What it has passed is read in the same way
-- when something else stands behind: when the next lexeme is the same, and at the end of a part that was read also when
-- something comes that continues nothing. More fuel changes nothing either.
namespace StackScript

inductive Cursor.Passes : Cursor → List Lexeme → Cursor → Prop where
  | nil {c : Cursor} : Passes c [] c
  | next {l : Lexeme} {rest ls : List Lexeme} {position : Nat} {previous : Span} {d : Cursor} :
      Passes ⟨rest, position + 1, l.span⟩ ls d → Passes ⟨l :: rest, position, previous⟩ (l :: ls) d

namespace Cursor.Passes

variable {c d e : Cursor} {ls ms : List Lexeme}

theorem trans (first : c.Passes ls d) (next : d.Passes ms e) : c.Passes (ls ++ ms) e := by
  induction first with
  | nil => exact next
  | next _ ih => exact .next (ih next)

theorem rest (passes : c.Passes ls d) : c.rest = ls ++ d.rest := by
  induction passes with
  | nil => rfl
  | next _ ih => exact congrArg (List.cons _) ih

theorem position (passes : c.Passes ls d) : d.position = c.position + ls.length := by
  induction passes with
  | nil => rfl
  | next _ ih =>
    rw [ih, List.length_cons]
    exact Nat.add_right_comm _ _ _

theorem of_nil (passes : c.Passes [] d) : d = c := by
  cases passes
  rfl

theorem length (passes : c.Passes ls d) : c.rest.length = ls.length + d.rest.length := by
  rw [passes.rest, List.length_append]

theorem unique (one : c.Passes ls d) (two : c.Passes ms d) : ls = ms :=
  List.append_cancel_right (one.rest.symm.trans two.rest)

end Cursor.Passes

-- The same place, some lexemes further into a text that goes on in another way.
def Cursor.facing (c : Cursor) (further : Nat) (rest : List Lexeme) : Cursor := ⟨rest, c.position + further, c.previous⟩

theorem Cursor.Passes.facing {c d : Cursor} {ls : List Lexeme} (passes : c.Passes ls d) (further : Nat)
    (rest : List Lexeme) : (c.facing further (ls ++ rest)).Passes ls (d.facing further rest) := by
  induction passes with
  | nil => exact .nil
  | @next l _ ls position previous d _ ih =>
    have place : position + further + 1 = position + 1 + further := Nat.add_right_comm _ _ _
    change Passes ⟨l :: (ls ++ rest), position + further, previous⟩ _ _
    apply Passes.next
    rw [place]
    exact ih

def ParseError.further (n : Nat) (e : ParseError) : ParseError := { e with position := e.position + n }

-- A name alone can be read as an expression: where one is next, reading passes two lexemes before it fails.
def Cursor.named (c : Cursor) : Nat :=
  match c.rest with
  | ⟨.identifier _, _⟩ :: _ => 2
  | _ => 0

theorem Cursor.named_le (c : Cursor) : c.named ≤ 2 := by
  rw [named]
  split <;> decide

-- What continues no part of a program that could end in front of it.
def Token.loose : Token → Bool
  | .comma | .semicolon | .elseWord | .assign => false
  | t => t.precedence = 0

theorem Token.loose_precedence {t : Token} (loose : t.loose = true) (level : Nat) : t.precedence ≤ level := by
  cases t <;> first | exact Nat.zero_le level | cases loose

def Loose (ls : List Lexeme) : Prop := ∀ l ∈ ls.head?, l.token.loose = true

-- What may stand behind a part that was read in front of `old`.
def Instead (old new : List Lexeme) : Prop := new.head? = old.head? ∨ Loose new

-- Behind what was passed nothing is next that was not next there, but what continues nothing.
theorem Instead.head {old new : List Lexeme} (instead : Instead old new) (ls : List Lexeme) {t : Token}
    (here : (ls ++ new).head?.map Lexeme.token = some t) :
    (ls ++ old).head?.map Lexeme.token = some t ∨ t.loose = true := by
  cases ls with
  | cons l ls => exact .inl here
  | nil =>
    rcases instead with same | loose
    · left
      rw [← here]
      exact congrArg (Option.map Lexeme.token) same.symm
    · right
      obtain ⟨l, first, rfl⟩ := Option.map_eq_some_iff.mp here
      exact loose l first

theorem Instead.same (old : List Lexeme) : Instead old old := .inl rfl

theorem Instead.cons {l : Lexeme} {old new : List Lexeme} : Instead (l :: old) (l :: new) := .inl rfl

theorem Instead.behind {old new : List Lexeme} (instead : Instead old new) (ls : List Lexeme) :
    Instead (ls ++ old) (ls ++ new) := by
  cases ls with
  | nil => exact instead
  | cons l ls => exact .cons

namespace Parsing

variable {α β : Type} {least early : Nat} {c : Cursor} {x y : Parsing α}

-- What `x` does at `c` with the lexemes that it passes, `y` does with them wherever they stand, in front of any lexemes that
-- may follow. When `x` succeeds it passes at least some lexemes, and also when it fails, where it then stands.
def Local (least early : Nat) (c : Cursor) (x y : Parsing α) : Prop :=
  match x c with
  | .ok a d => ∃ ls, c.Passes ls d ∧ least ≤ ls.length ∧ ∀ further rest, Instead d.rest rest →
      y (c.facing further (ls ++ rest)) = .ok a (d.facing further rest)
  | .error (.error e) d => ∃ ls, c.Passes ls d ∧ early ≤ ls.length ∧ e = d.error e.problem ∧
      ∀ further rest, rest.head? = d.rest.head? →
        y (c.facing further (ls ++ rest)) = .error (.error (e.further further)) (d.facing further rest)
  | .error .exhausted _ => True

theorem local_weaken {n m : Nat} (reads : Local n m c x y) (fewer : least ≤ n) (fewer' : early ≤ m) :
    Local least early c x y := by
  unfold Local at reads ⊢
  split at reads
  · obtain ⟨ls, passes, enough, again⟩ := reads
    exact ⟨ls, passes, Nat.le_trans fewer enough, again⟩
  · obtain ⟨ls, passes, enough, again⟩ := reads
    exact ⟨ls, passes, Nat.le_trans fewer' enough, again⟩
  · trivial

section
variable {a : α} {e : ParseError} {d : Cursor} {ls rest : List Lexeme}

theorem local_ok (reads : Local least early c x y) (run : x c = .ok a d) :
    ∃ ls, c.Passes ls d ∧ least ≤ ls.length ∧ ∀ further rest, Instead d.rest rest →
      y (c.facing further (ls ++ rest)) = .ok a (d.facing further rest) := by
  unfold Local at reads
  rwa [run] at reads

theorem local_error (reads : Local least early c x y) (run : x c = .error (.error e) d) :
    ∃ ls, c.Passes ls d ∧ early ≤ ls.length ∧ e = d.error e.problem ∧ ∀ further rest, rest.head? = d.rest.head? →
      y (c.facing further (ls ++ rest)) = .error (.error (e.further further)) (d.facing further rest) := by
  unfold Local at reads
  rwa [run] at reads

theorem local_early (reads : Local least early c x y) (run : x c = .error (.error e) d) (passes : c.Passes ls d) :
    early ≤ ls.length := by
  obtain ⟨ms, passes', enough, -⟩ := local_error reads run
  rwa [passes.unique passes']

theorem local_again (reads : Local least early c x y) (run : x c = .ok a d) (passes : c.Passes ls d)
    (instead : Instead d.rest rest) (further : Nat) :
    y (c.facing further (ls ++ rest)) = .ok a (d.facing further rest) := by
  obtain ⟨ms, passes', -, again⟩ := local_ok reads run
  rw [passes.unique passes']
  exact again further rest instead

theorem local_fails (reads : Local least early c x y) (run : x c = .error (.error e) d) (passes : c.Passes ls d)
    (same : rest.head? = d.rest.head?) (further : Nat) :
    y (c.facing further (ls ++ rest)) = .error (.error (e.further further)) (d.facing further rest) := by
  obtain ⟨ms, passes', -, -, again⟩ := local_error reads run
  rw [passes.unique passes']
  exact again further rest same

end

theorem local_then {n m n' m' : Nat} {b b' : Parsing β} {f f' : β → Parsing α} (first : Local n m c b b')
    (next : ∀ v d, b c = .ok v d → Local n' m' d (f v) (f' v)) (fewer : early ≤ m) (fewer' : early ≤ n + m') :
    Local (n + n') early c (b >>= f) (b' >>= f') := by
  unfold Local at first ⊢
  simp only [bind, EStateM.bind]
  cases run : b c with
  | error h d =>
    rw [run] at first
    cases h with
    | exhausted => trivial
    | error e =>
      obtain ⟨ls, passes, enough, here, again⟩ := first
      refine ⟨ls, passes, Nat.le_trans fewer enough, here, ?_⟩
      intro further rest same
      rw [again further rest same]
  | ok v d =>
    rw [run] at first
    obtain ⟨ls, passes, enough, again⟩ := first
    have second := next v d run
    unfold Local at second
    -- What the second part passes stands behind the first one in both texts.
    have onward {e : Cursor} {ms rest : List Lexeme} (passes : d.Passes ms e) (instead : Instead e.rest rest)
        (further : Nat) : b' (c.facing further (ls ++ ms ++ rest)) = .ok v (d.facing further (ms ++ rest)) := by
      rw [List.append_assoc]
      apply again
      rw [passes.rest]
      exact instead.behind ms
    simp only
    split at second
    · obtain ⟨ms, passes', some', again'⟩ := second
      refine ⟨ls ++ ms, passes.trans passes', by rw [List.length_append]; omega, ?_⟩
      intro further rest instead
      rw [onward passes' instead]
      exact again' further rest instead
    · obtain ⟨ms, passes', some', here, again'⟩ := second
      refine ⟨ls ++ ms, passes.trans passes', by rw [List.length_append]; omega, here, ?_⟩
      intro further rest same
      rw [onward passes' (.inl same)]
      exact again' further rest same
    · trivial

section
variable {n m : Nat} {b b' : Parsing β} {f f' : β → Parsing α}

theorem local_begin (first : Local n m c b b') (next : ∀ v d, b c = .ok v d → Local 0 0 d (f v) (f' v)) :
    Local n 0 c (b >>= f) (b' >>= f') :=
  local_then first next (Nat.zero_le m) (Nat.zero_le n)

theorem local_bind (first : Local n m c b b') (next : ∀ v d, b c = .ok v d → Local 0 0 d (f v) (f' v)) :
    Local 0 0 c (b >>= f) (b' >>= f') :=
  local_weaken (local_begin first next) (Nat.zero_le n) (Nat.le_refl 0)

end

theorem local_pure {a : α} : Local 0 early c (pure a) (pure a) := ⟨[], .nil, Nat.le_refl _, fun _ _ _ => rfl⟩

theorem local_exhausted : Local least early c (throw .exhausted) y := trivial

theorem local_refuse (problem : Misread) : Local least 0 c (refuse problem : Parsing α) (refuse problem) := by
  refine ⟨[], .nil, Nat.zero_le _, rfl, ?_⟩
  intro further rest same
  have place : (c.facing further rest).here = c.here := by
    obtain ⟨old, position, previous⟩ := c
    cases old with
    | nil =>
      cases List.head?_eq_none_iff.mp same
      rfl
    | cons l old =>
      obtain ⟨new, rfl⟩ := List.head?_eq_some_iff.mp same
      rfl
  change EStateM.Result.error (Halt.error ⟨c.position + further, (c.facing further rest).here, problem⟩) _ = _
  rw [place]
  rfl

theorem local_spanFrom {start : Span} : Local 0 0 c (spanFrom start) (spanFrom start) :=
  ⟨[], .nil, Nat.le_refl _, fun _ _ _ => rfl⟩

theorem local_advance {l : Lexeme} {rest : List Lexeme} (next : c.rest = l :: rest) : Local 1 early c advance advance := by
  obtain ⟨_, position, previous⟩ := c
  cases next
  refine ⟨[l], .next .nil, Nat.le_refl _, ?_⟩
  intro further rest' _
  have same : position + further + 1 = position + 1 + further := Nat.add_right_comm _ _ _
  change EStateM.Result.ok () (⟨rest', position + further + 1, l.span⟩ : Cursor) = _
  rw [same]
  rfl

theorem local_pass {l : Lexeme} {rest : List Lexeme} (next : c.rest = l :: rest)
    (others : Local least early ⟨rest, c.position + 1, l.span⟩ x y) :
    Local (least + 1) (early + 1) c (do advance; x) (do advance; y) := by
  rw [Nat.add_comm least, Nat.add_comm early]
  refine local_then (local_advance next) (fun _ d run => ?_) (Nat.le_refl _) (Nat.le_refl _)
  obtain ⟨_, position, previous⟩ := c
  cases next
  cases run
  exact others

section
variable {x' y' : Parsing α}

-- Both do what they do for the same reason: it does not matter where the lexemes that decide about it stand.
theorem local_same (reads : Local least early c x' y') (here : x c = x' c)
    (there : ∀ ls d further rest, c.Passes ls d →
      least ≤ ls.length ∧ Instead d.rest rest ∨ early ≤ ls.length ∧ rest.head? = d.rest.head? →
      y (c.facing further (ls ++ rest)) = y' (c.facing further (ls ++ rest))) : Local least early c x y := by
  unfold Local at reads ⊢
  rw [here]
  split at reads
  · obtain ⟨ls, passes, enough, again⟩ := reads
    refine ⟨ls, passes, enough, ?_⟩
    intro further rest instead
    rw [there ls _ further rest passes (.inl ⟨enough, instead⟩)]
    exact again further rest instead
  · obtain ⟨ls, passes, enough, e, again⟩ := reads
    refine ⟨ls, passes, enough, e, ?_⟩
    intro further rest same
    rw [there ls _ further rest passes (.inr ⟨enough, same⟩)]
    exact again further rest same
  · trivial

theorem local_alike (reads : Local (least + 1) early c x' y') (here : x c = x' c)
    (there : ∀ rest n, rest.head? = c.rest.head? → y ⟨rest, n, c.previous⟩ = y' ⟨rest, n, c.previous⟩) :
    Local (least + 1) early c x y := by
  refine local_same reads here ?_
  intro ls d further rest passes known
  apply there
  rw [passes.rest]
  cases ls with
  | cons l ls => rfl
  | nil =>
    rcases known with ⟨enough, -⟩ | ⟨-, same⟩
    · exact absurd enough (Nat.not_succ_le_zero _)
    · exact same

theorem local_taken {l : Lexeme} {rest : List Lexeme} (next : c.rest = l :: rest)
    (reads : Local (least + 1) early c x' y') (here : x c = x' c)
    (there : ∀ rest' n, y ⟨l :: rest', n, c.previous⟩ = y' ⟨l :: rest', n, c.previous⟩) :
    Local (least + 1) early c x y := by
  refine local_alike reads here ?_
  intro new n same
  rw [next] at same
  obtain ⟨rest', rfl⟩ := List.head?_eq_some_iff.mp same
  exact there rest' n

theorem local_ended (next : c.rest = []) (reads : Local (least + 1) early c x' y') (here : x c = x' c)
    (there : ∀ n, y ⟨[], n, c.previous⟩ = y' ⟨[], n, c.previous⟩) : Local (least + 1) early c x y := by
  refine local_alike reads here ?_
  intro new n same
  rw [next] at same
  cases List.head?_eq_none_iff.mp same
  exact there n

end

theorem advance_cons {l : Lexeme} {rest : List Lexeme} (here : c.rest = l :: rest) :
    advance c = .ok () ⟨rest, c.position + 1, l.span⟩ := by
  obtain ⟨_, position, previous⟩ := c
  cases here
  rfl

theorem eat_eq (t : Token) (c : Cursor) : eat t c = if c.peek? = some t then .ok true c.advance else .ok false c := by
  change (if c.peek? = some t then (do advance; return true) else pure false : Parsing Bool) c = _
  split <;> rfl

theorem closed_ok {x : Parsing Stmt} {c d : Cursor} {s : Stmt} (run : x c = .ok s d) :
    closed x c = .ok s (if d.peek? = some .semicolon then d.advance else d) := by
  simp only [closed, bind, EStateM.bind, run, eat_eq]
  by_cases here : d.peek? = some .semicolon
  · rw [if_pos here, if_pos here]
    rfl
  · rw [if_neg here, if_neg here]
    rfl

theorem closed_error {x : Parsing Stmt} {c d : Cursor} {h : Halt} (run : x c = .error h d) : closed x c = .error h d := by
  simp only [closed, bind, EStateM.bind, run]

theorem expect_eq (t : Token) (c : Cursor) :
    expect t c = if c.peek? = some t then .ok () c.advance else refuse (.token t c.peek?) c := by
  change (if c.peek? = some t then advance else refuse (.token t c.peek?) : Parsing Unit) c = _
  split <;> rfl

theorem peek_cons {t : Token} (here : c.peek? = some t) : ∃ place rest, c.rest = ⟨t, place⟩ :: rest := by
  obtain ⟨rest, position, previous⟩ := c
  cases rest with
  | nil => cases here
  | cons l rest =>
    cases here
    exact ⟨l.span, rest, rfl⟩

theorem local_expect (t : Token) : Local 1 0 c (expect t) (expect t) := by
  by_cases here : c.peek? = some t
  · obtain ⟨place, rest, next⟩ := peek_cons here
    refine local_taken next (local_advance next) ?_ ?_
    · rw [expect_eq, if_pos here]
      rfl
    · intro rest' n
      rw [expect_eq]
      exact if_pos rfl
  · refine local_alike (local_refuse (.token t c.peek?)) ?_ ?_
    · rw [expect_eq, if_neg here]
    · intro rest n same
      have peek : (⟨rest, n, c.previous⟩ : Cursor).peek? = c.peek? := congrArg (Option.map Lexeme.token) same
      rw [expect_eq, peek, if_neg here]

theorem local_eat {t : Token} (inner : t.loose = false) : Local 0 0 c (eat t) (eat t) := by
  by_cases here : c.peek? = some t
  · obtain ⟨place, rest, next⟩ := peek_cons here
    have taken : Local 1 1 c (eat t) (eat t) := by
      refine local_taken next (local_pass next (local_pure (a := true))) ?_ ?_
      · rw [eat_eq, if_pos here]
        rfl
      · intro rest' n
        rw [eat_eq]
        exact if_pos rfl
    exact local_weaken taken (Nat.zero_le 1) (Nat.zero_le 1)
  · unfold Local
    rw [eat_eq, if_neg here]
    refine ⟨[], .nil, Nat.le_refl _, ?_⟩
    intro further rest instead
    rw [eat_eq, if_neg]
    · rfl
    · intro there
      rcases instead.head [] there with same | loose
      · exact here same
      · rw [inner] at loose
        cases loose

theorem local_unless {t : Token} {x' y' : Parsing α} (yes : ∀ d, Local 0 0 d x x') (no : Local 1 0 c y y') :
    Local 1 0 c (do if ← eat t then x else y) (do if ← eat t then x' else y') := by
  have eaten (x y : Parsing α) {d : Cursor} (here : d.peek? = some t) :
      (do if ← eat t then x else y) d = (do advance; x) d := by
    simp only [bind, EStateM.bind, eat_eq, if_pos here]
    rfl
  have left (x y : Parsing α) {d : Cursor} (here : d.peek? ≠ some t) : (do if ← eat t then x else y) d = y d := by
    simp only [bind, EStateM.bind, eat_eq, if_neg here]
    rfl
  by_cases here : c.peek? = some t
  · obtain ⟨place, rest, next⟩ := peek_cons here
    exact local_taken next (local_weaken (local_pass next (yes _)) (Nat.le_refl 1) (Nat.zero_le 1)) (eaten x y here)
      fun _ _ => eaten x' y' rfl
  · refine local_alike no (left x y here) ?_
    intro rest n same
    apply left
    have peek : (⟨rest, n, c.previous⟩ : Cursor).peek? = c.peek? := congrArg (Option.map Lexeme.token) same
    rw [peek]
    exact here

theorem local_expectIdentifier : Local 1 0 c expectIdentifier expectIdentifier := by
  obtain ⟨rest, position, previous⟩ := c
  cases rest with
  | nil => exact local_ended rfl (local_refuse (.identifier none)) rfl fun _ => rfl
  | cons l rest =>
    obtain ⟨t, place⟩ := l
    cases t with
    | identifier name =>
      exact local_taken rfl (local_weaken (local_pass rfl local_pure) (Nat.le_refl 1) (Nat.zero_le 1)) rfl fun _ _ => rfl
    | _ => exact local_taken rfl (local_refuse (.identifier (some _))) rfl fun _ _ => rfl

theorem Local.any {n m : Nat} (reads : Local n m c x y) : Local 0 0 c x y :=
  local_weaken reads (Nat.zero_le n) (Nat.zero_le m)

theorem local_node {start : Span} {made : Span → α} :
    Local 0 early c (do return made (← spanFrom start)) (do return made (← spanFrom start)) :=
  ⟨[], .nil, Nat.le_refl _, fun _ _ _ => rfl⟩

end Parsing
end StackScript
