import StackScript.Proofs.Machine.Halting
import StackScript.Proofs.Session.Safety

-- Whatever texts a session is given, each of them is evaluated in finitely many steps.
namespace StackScript

-- An evaluation that has come to its end as a program may: with a value, with a fault, or with what is wrong with its text.
structure Outcome.Ends {α : Type} (o : Outcome α) : Prop where
  finished : o.result ≠ .error .unfinished
  summed : o.result ≠ .error .additionOverflow

namespace Session

theorem eval_halts {s : Session} (sound : s.Sound) (source : String) :
    ∃ least outcome next, outcome.Ends ∧ next.Sound ∧
      ∀ budget, least ≤ budget → s.eval budget source = (outcome, next) := by
  cases result : s.compiled source with
  | error e =>
    have early := compiled_error result
    refine ⟨0, ⟨.error e, #[]⟩, s, ⟨?_, ?_⟩, sound, fun budget _ => ?_⟩
    · intro same
      cases same
      exact early trivial
    · intro same
      cases same
      exact early trivial
    · unfold compiled at result
      rw [eval, result]
  | ok c =>
    obtain ⟨p, run⟩ := compiled_ok result
    obtain ⟨-, -, start⟩ := start_sound sound run
    obtain ⟨ending, m, ⟨least, ends⟩, stopped⟩ := (start.stops rfl).ends
    have same (budget : Nat) (enough : least ≤ budget) :
        s.eval budget source = (⟨ending.result m, m.output⟩, ⟨c.symbols, c.constants, m.globals⟩) := by
      unfold compiled at result
      rw [eval, result]
      simp only [ends budget enough]
    obtain ⟨fine, later⟩ := eval_sound sound least source
    rw [same least (Nat.le_refl least)] at fine later
    refine ⟨least, _, _, ⟨?_, fun overflow => fine (.inr overflow)⟩, later, same⟩
    match ending with
    | .unfinished => exact absurd rfl stopped
    | .halted | .failed _ | .stopped .additionOverflow => simp [Ending.result]

theorem evalAll_halts (sources : List String) {s : Session} (sound : s.Sound) :
    ∃ bound, ∀ inputs : List (Nat × String), inputs.map Prod.snd = sources → (∀ input ∈ inputs, bound ≤ input.1) →
      (s.evalAll inputs).Forall fun outcome => outcome.Ends := by
  induction sources generalizing s with
  | nil =>
    refine ⟨0, fun inputs empty _ => ?_⟩
    rw [List.map_eq_nil_iff.mp empty]
    trivial
  | cons source rest ih =>
    obtain ⟨least, outcome, next, stopped, later, same⟩ := eval_halts sound source
    obtain ⟨bound, others⟩ := ih later
    refine ⟨max least bound, fun inputs sources enough => ?_⟩
    cases inputs with
    | nil => cases sources
    | cons input inputs =>
      obtain ⟨budget, text⟩ := input
      obtain ⟨rfl, further⟩ := List.cons.inj sources
      have first := same budget (Nat.le_trans (Nat.le_max_left _ _) (enough _ List.mem_cons_self))
      have each : ∀ input ∈ inputs, bound ≤ input.1 := fun input present =>
        Nat.le_trans (Nat.le_max_right _ _) (enough input (List.mem_cons_of_mem _ present))
      rw [evalAll, List.forall_cons]
      simp only [first]
      exact ⟨stopped, others inputs further each⟩

-- For every sequence of texts there is a number of steps in which each of them has been evaluated, to a value or a fault,
-- if it compiles at all.
theorem session_halts (sources : List String) :
    ∃ bound, ∀ inputs : List (Nat × String), inputs.map Prod.snd = sources → (∀ input ∈ inputs, bound ≤ input.1) →
      (new.evalAll inputs).Forall fun outcome => outcome.Ends := evalAll_halts sources new_sound

-- A function that only calls itself.
theorem session_halts_recurring : ∃ bound, ∀ budget, bound ≤ budget →
    (new.evalAll [(budget, "let f = fn() \x7b f() \x7d;"), (budget, "f()")]).Forall fun outcome => outcome.Ends := by
  obtain ⟨bound, halts⟩ := session_halts ["let f = fn() \x7b f() \x7d;", "f()"]
  refine ⟨bound, fun budget enough => halts _ rfl ?_⟩
  simp only [List.mem_cons, List.not_mem_nil, or_false]
  rintro input (rfl | rfl)
  · exact enough
  · exact enough

end Session
end StackScript
