import StackScript.Proofs.Machine.Run
import StackScript.Proofs.Machine.SafeCode
import StackScript.Session

-- Whatever texts a session is given, the code that they are compiled to is never found malformed.
namespace StackScript

def Ending.Sound : Ending → Prop
  | stopped stop => ¬ stop.Malformed
  | halted | unfinished => True

theorem Machine.run_sound {pool : Array Value} {budget : Nat} {m n : Machine} {ending : Ending} (sound : m.Sound pool)
    (ran : m.run budget = (ending, n)) :
    ending.Sound ∧ ∀ v ∈ n.globals, v.Sound pool := by
  induction budget generalizing m with
  | zero =>
    cases ran
    exact ⟨trivial, sound.globals⟩
  | succ budget ih =>
    have stepped := Running.step_ensures sound
    unfold Running.Ensures at stepped
    rw [Machine.run] at ran
    cases step : Running.step m with
    | ok signal o =>
      rw [step] at ran stepped
      cases signal with
      | next => exact ih stepped ran
      | halt =>
        cases ran
        exact ⟨trivial, stepped⟩
    | error stop o =>
      rw [step] at ran stepped
      cases ran
      exact stepped

namespace Session

-- What a session keeps between two texts: names that fit together, and functions that can be called.
structure Sound (s : Session) : Prop where
  symbols : s.symbols.Valid
  main : s.symbols.enclosing = []
  globals : ∀ v ∈ s.globals, v.Sound s.constants

theorem new_sound : new.Sound := by
  obtain ⟨valid, main⟩ := Compiler.nativeNames_valid
  exact ⟨valid, main, by simp [new]⟩

theorem start_sound {s : Session} {p : Program} {c : Compiler} (sound : s.Sound)
    (compiled : (Compiler.resume s.symbols s.constants).compile p = .ok () c) :
    c.symbols.Valid ∧ c.symbols.enclosing = [] ∧ (Machine.start c.bytecode s.globals).Sound c.constants := by
  have done := Compiler.compile_done sound.symbols sound.main compiled
  refine ⟨done.symbols, done.main, ?_⟩
  rw [done.bytecode]
  refine ⟨rfl, fun v present => (sound.globals v present).grows done.constants, by simp [Machine.start], ?_, ?_⟩
  · simp [Machine.start]
  · have good : Frame.Good c.constants ⟨⟨c.fragment.code, 0, 0⟩, [], 0, 0⟩ false 0 :=
      ⟨done.safe, by simp, fun nested => by cases nested⟩
    exact .main good

end Session

-- Whether an evaluation ended by finding its code malformed, or by a sum that only malformed code can make so large.
def Outcome.Malformed {α : Type} (o : Outcome α) : Prop :=
  (∃ f, o.result = .error (.run f) ∧ f.Malformed) ∨ o.result = .error .additionOverflow

-- The failures that only a run can end with.
def Failure.InRun : Failure → Prop
  | run _ | additionOverflow | unfinished => True
  | _ => False

namespace Session

def compiled (s : Session) (source : String) : Except Failure Compiler := do
  (Compiler.resume s.symbols s.constants).after (← Program.ofSource source)

theorem compiled_iff {s : Session} {source : String} {c : Compiler} : s.compiled source = .ok c ↔
    ∃ p, Program.ofSource source = .ok p ∧ (Compiler.resume s.symbols s.constants).compile p = .ok () c := by
  rw [Session.compiled]
  cases Program.ofSource source with
  | error e => simp [bind, Except.bind]
  | ok p =>
    simp only [bind, Except.bind, Except.ok.injEq, exists_eq_left', Compiler.after]
    cases (Compiler.resume s.symbols s.constants).compile p with
    | ok u d => simp
    | error r d => cases r <;> simp

theorem compiled_ok {s : Session} {source : String} {c : Compiler} (compiled : s.compiled source = .ok c) :
    ∃ p, (Compiler.resume s.symbols s.constants).compile p = .ok () c := by
  obtain ⟨p, -, run⟩ := compiled_iff.mp compiled
  exact ⟨p, run⟩

theorem compiled_error {s : Session} {source : String} {e : Failure} (failed : s.compiled source = .error e) :
    ¬ e.InRun := by
  unfold compiled Program.ofSource at failed
  simp only [bind, Except.bind, Compiler.after] at failed
  split at failed
  · rename_i unread
    split at unread
    · cases failed
      cases unread
      exact id
    · split at unread <;> cases failed <;> cases unread
      exact id
  · split at failed <;> cases failed <;> exact id

theorem eval_eq (s : Session) (budget : Nat) (source : String) : s.eval budget source =
    match s.compiled source with
    | .error e => (⟨.error e, #[]⟩, s)
    | .ok c =>
      let (ending, m) := (Machine.start c.bytecode s.globals).run budget
      (⟨ending.result m, m.output⟩, ⟨c.symbols, c.constants, m.globals⟩) := rfl

-- A text that does not compile changes nothing; any other is run on the globals of the session.
theorem eval_cases (s : Session) (budget : Nat) (source : String) :
    (∃ e, ¬ e.InRun ∧ s.eval budget source = (⟨.error e, #[]⟩, s)) ∨
    (∃ p c, (Compiler.resume s.symbols s.constants).compile p = .ok () c ∧ ∃ ending m,
      (Machine.start c.bytecode s.globals).run budget = (ending, m) ∧
      s.eval budget source = (⟨ending.result m, m.output⟩, ⟨c.symbols, c.constants, m.globals⟩)) := by
  rw [eval_eq]
  cases result : s.compiled source with
  | error e => exact .inl ⟨e, compiled_error result, rfl⟩
  | ok c =>
    obtain ⟨p, run⟩ := compiled_ok result
    exact .inr ⟨p, c, run, _, _, rfl, rfl⟩

theorem eval_sound {s : Session} (sound : s.Sound) (budget : Nat) (source : String) :
    ¬ (s.eval budget source).1.Malformed ∧ (s.eval budget source).2.Sound := by
  rcases eval_cases s budget source with ⟨e, other, equal⟩ | ⟨p, c, compiled, ending, m, ran, equal⟩
  · rw [equal]
    refine ⟨?_, sound⟩
    rintro (⟨f, failed, -⟩ | failed)
    · cases failed
      exact other trivial
    · cases failed
      exact other trivial
  · rw [equal]
    obtain ⟨symbols, main, start⟩ := start_sound sound compiled
    obtain ⟨proper, globals⟩ := Machine.run_sound start ran
    refine ⟨?_, symbols, main, globals⟩
    rintro (⟨f, failed, malformed⟩ | failed)
    · match ending with
      | .failed g =>
        cases failed
        exact proper malformed
      | .halted | .stopped .additionOverflow | .unfinished => cases failed
    · match ending with
      | .stopped .additionOverflow => exact proper trivial
      | .halted | .failed _ | .unfinished => cases failed

-- The outcomes of texts given one after the other, each with a budget of its own.
def evalAll : List (Nat × String) → Session → List (Outcome (Option Value))
  | [], _ => []
  | (budget, source) :: rest, s => (s.eval budget source).1 :: evalAll rest (s.eval budget source).2

theorem evalAll_sound (inputs : List (Nat × String)) {s : Session} (sound : s.Sound) :
    (s.evalAll inputs).Forall fun outcome => ¬ outcome.Malformed := by
  induction inputs generalizing s with
  | nil => trivial
  | cons input rest ih =>
    obtain ⟨budget, source⟩ := input
    obtain ⟨fine, next⟩ := eval_sound sound budget source
    rw [evalAll, List.forall_cons]
    exact ⟨fine, ih next⟩

-- No text of a session ends by finding its code malformed, whatever the texts before it did.
theorem session_never_malformed (inputs : List (Nat × String)) :
    (new.evalAll inputs).Forall fun outcome => ¬ outcome.Malformed := evalAll_sound inputs new_sound

def after : List (Nat × String) → Session → Session
  | [], s => s
  | (budget, source) :: rest, s => after rest (s.eval budget source).2

theorem after_keeps (keeps : Session → Prop) (each : ∀ s budget source, keeps s → keeps (s.eval budget source).2)
    (inputs : List (Nat × String)) {s : Session} (here : keeps s) : keeps (s.after inputs) := by
  induction inputs generalizing s with
  | nil => exact here
  | cons input rest ih => exact ih (each s input.1 input.2 here)

theorem after_append (first second : List (Nat × String)) (s : Session) :
    s.after (first ++ second) = (s.after first).after second := by
  induction first generalizing s with
  | nil => rfl
  | cons input rest ih => exact ih _

theorem after_sound (inputs : List (Nat × String)) : (new.after inputs).Sound :=
  after_keeps Sound (fun _ budget source sound => (eval_sound sound budget source).2) inputs new_sound

end Session
end StackScript
