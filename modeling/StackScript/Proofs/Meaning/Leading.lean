import StackScript.Machine.Step
import StackScript.Proofs.Meaning.Evaluation

-- A machine follows an evaluation: it comes to where the evaluation comes, or its stack overflows on the way.
namespace StackScript

namespace Machine

section
variable {m n o : Machine} {budget : Nat} {ending : Ending}

theorem run_step (step : Running.step m = .ok .next o) (budget : Nat) : m.run (budget + 1) = o.run budget := by
  rw [run, step]

theorem run_longer (run : m.run budget = (ending, n)) (stopped : ending ≠ .unfinished) (more : Nat) :
    m.run (budget + more) = (ending, n) := by
  induction budget generalizing m with
  | zero =>
    cases run
    exact absurd rfl stopped
  | succ budget ih =>
    rw [Nat.add_right_comm, Machine.run]
    rw [Machine.run] at run
    split at run
    · exact ih run
    · exact run
    · exact run

end

-- A run comes to a machine of one kind, or fails in one of the ways that are allowed.
inductive Leads (goal : Machine → Prop) (fails : Stop → Machine → Prop) : Machine → Prop where
  | here {m : Machine} : goal m → Leads goal fails m
  | next {m o : Machine} : Running.step m = .ok .next o → Leads goal fails o → Leads goal fails m
  | fail {m o : Machine} {stop : Stop} : Running.step m = .error stop o → fails stop o → Leads goal fails m

variable {goal after : Machine → Prop} {fails more : Stop → Machine → Prop} {m : Machine}

theorem Leads.bind (first : m.Leads goal fails) (rest : ∀ o, goal o → o.Leads after fails) : m.Leads after fails := by
  induction first with
  | here reached => exact rest _ reached
  | next step _ ih => exact .next step ih
  | fail step failed => exact .fail step failed

theorem Leads.mono (first : m.Leads goal fails) (goals : ∀ o, goal o → after o) (stops : ∀ stop o, fails stop o → more stop o) :
    m.Leads after more := by
  induction first with
  | here reached => exact .here (goals _ reached)
  | next step _ ih => exact .next step ih
  | fail step failed => exact .fail step (stops _ _ failed)

theorem Leads.run (leads : m.Leads goal fails) : ∃ count,
    (∃ o, goal o ∧ ∀ budget, m.run (count + budget) = o.run budget) ∨
    (∃ stop o, fails stop o ∧ ∀ budget, m.run (count + budget) = (.stopped stop, o)) := by
  induction leads with
  | here reached => exact ⟨0, .inl ⟨_, reached, fun budget => by rw [Nat.zero_add]⟩⟩
  | @next m o step _ ih =>
    obtain ⟨count, ⟨o, reached, same⟩ | ⟨stop, o, failed, same⟩⟩ := ih
    · refine ⟨count + 1, .inl ⟨o, reached, fun budget => ?_⟩⟩
      rw [Nat.add_right_comm, run_step step, same]
    · refine ⟨count + 1, .inr ⟨stop, o, failed, fun budget => ?_⟩⟩
      rw [Nat.add_right_comm, run_step step, same]
  | @fail m o stop step failed =>
    refine ⟨1, .inr ⟨stop, o, failed, fun budget => ?_⟩⟩
    rw [Nat.add_comm, Machine.run, step]

end Machine

structure World.Shows (w : World) (m : Machine) : Prop where
  output : m.output = w.output
  last : m.last = w.last.map Datum.value
  globals : ∀ n, m.globals[n]?.getD .null = (w.globals n).value

def Overflow : Stop → Machine → Prop := fun stop _ => stop = .fault .stackOverflow

-- A machine goes where an evaluation goes, to one place if the evaluation comes to its end and to another if it returns
-- early. It fails as the evaluation fails.
def Follows {α : Type} (m : Machine) (r : EStateM.Result Exit Situation α) (goal : α → Situation → Machine → Prop)
    (back : Datum → Situation → Machine → Prop) : Prop :=
  match r with
  | .ok a s => m.Leads (goal a s) Overflow
  | .error (.returned d) s => m.Leads (back d s) Overflow
  | .error (.failed f) s => m.Leads (fun _ => False) fun stop o => stop = .fault .stackOverflow ∨ (stop = .fault f ∧ s.world.Shows o)
  | .error .exhausted _ => m.Leads (fun _ => False) Overflow

namespace Follows

variable {α β : Type} {m o : Machine} {r : EStateM.Result Exit Situation α} {goal next : α → Situation → Machine → Prop}
  {after : β → Situation → Machine → Prop} {back : Datum → Situation → Machine → Prop}

theorem overflow (leads : m.Leads (fun _ => False) Overflow) : Follows m r goal back := by
  unfold Follows
  split
  · exact leads.mono (fun _ no => no.elim) fun _ _ spilled => spilled
  · exact leads.mono (fun _ no => no.elim) fun _ _ spilled => spilled
  · exact leads.mono (fun _ no => no.elim) fun _ _ spilled => .inl spilled
  · exact leads

theorem after_leads {P : Machine → Prop} (leads : m.Leads P Overflow) (rest : ∀ o, P o → Follows o r goal back) :
    Follows m r goal back := by
  induction leads with
  | here reached => exact rest _ reached
  | fail step spilled => exact overflow (.fail step spilled)
  | next step _ ih =>
    unfold Follows at ih ⊢
    split at ih <;> exact .next step ih

theorem bind {x : Doing α} {f : α → Doing β} {s : Situation} (first : Follows m (x s) goal back)
    (rest : ∀ a t o, x s = .ok a t → goal a t o → Follows o (f a t) after back) : Follows m ((x >>= f) s) after back := by
  simp only [Bind.bind, EStateM.bind]
  cases run : x s with
  | ok a t =>
    rw [run] at first
    exact after_leads first fun o reached => rest a t o run reached
  | error e t =>
    rw [run] at first
    cases e <;> exact first

theorem mono (first : Follows m r goal back) (goals : ∀ a t o, r = .ok a t → goal a t o → next a t o) :
    Follows m r next back := by
  unfold Follows at first ⊢
  split
  · exact first.mono (fun o reached => goals _ _ o rfl reached) fun _ _ spilled => spilled
  · exact first
  · exact first
  · exact first

end Follows
end StackScript
