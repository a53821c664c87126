import StackScript.Proofs.Machine.Moves
import StackScript.Proofs.Machine.Run
import StackScript.Proofs.Meaning.Preservation

-- A sound machine comes to a stop. Jumps only lead forward, so that a function that calls nothing is done after finitely
-- many steps, and calls go only so deep.
namespace StackScript

theorem Code.Follows.behind {code : Code} {a b : Nat} {i : Instruction} (follows : code.Follows a b)
    (item : code.itemAt a = .instruction i) (jump : i.opcode ≠ .jump) (unless_ : i.opcode ≠ .jumpUnless) :
    b = a + i.opcode.width := by
  obtain ⟨j, here, goes⟩ := follows
  rw [item] at here
  cases here
  unfold Instruction.GoesOn at goes
  split at goes
  · contradiction
  · contradiction
  · exact goes.elim
  · exact goes.elim
  · exact goes

theorem Safe.ways_end {pool : Array Value} {r : Region} {a h : Nat} (safe : Safe pool r a h) :
    Acc (fun b a => r.code.Follows a b) a := by
  -- What stands behind an instruction that does not jump is the only thing that follows.
  have straight {r : Region} {a : Nat} {i : Instruction} (item : r.code.itemAt a = .instruction i)
      (jump : i.opcode ≠ .jump) (unless_ : i.opcode ≠ .jumpUnless)
      (rest : Acc (fun b a => r.code.Follows a b) (a + i.opcode.width)) : Acc (fun b a => r.code.Follows a b) a := by
    refine .intro a fun b follows => ?_
    rw [follows.behind item jump unless_]
    exact rest
  have last {r : Region} {a : Nat} (stuck : ∀ b, ¬ r.code.Follows a b) : Acc (fun b a => r.code.Follows a b) a :=
    .intro a fun b follows => absurd follows (stuck b)
  induction safe with
  | @ends r outside =>
    refine last ?_
    rintro b ⟨i, item, _⟩
    rw [Code.itemAt, Array.getElem?_size] at item
    cases item
  | plain item effect other _ ih =>
    refine straight item ?_ ?_ ih
    all_goals
      intro equal
      unfold Instruction.effect? at effect
      split at effect <;> cases effect <;> cases equal
  | read item reads _ ih =>
    refine straight item ?_ ?_ ih
    all_goals
      intro equal
      unfold Region.Reads at reads
      split at reads <;> first | cases equal | exact reads.elim
  | write item writes _ ih =>
    refine straight item ?_ ?_ ih
    all_goals
      intro equal
      unfold Region.Writes at writes
      split at writes <;> first | cases equal | exact writes.elim
  | literal item _ _ _ ih => exact straight item (by simp) (by simp) ih
  | function item _ _ _ _ _ _ ih => exact straight item (by simp) (by simp) ih
  | closure item _ _ _ _ _ _ ih => exact straight item (by simp) (by simp) ih
  | @jump r a t h item _ ih =>
    refine .intro a ?_
    rintro b ⟨i, here, goes⟩
    rw [item] at here
    cases here
    cases goes
    exact ih
  | @jumpUnless r a t h item _ _ taken ih =>
    refine .intro a ?_
    rintro b ⟨i, here, goes⟩
    rw [item] at here
    cases here
    rcases goes with rfl | rfl
    · exact taken
    · exact ih
  | returnValue item =>
    refine last ?_
    rintro b ⟨i, here, goes⟩
    rw [item] at here
    cases here
    exact goes
  | returnNull item =>
    refine last ?_
    rintro b ⟨i, here, goes⟩
    rw [item] at here
    cases here
    exact goes

namespace Machine

-- Only finitely many steps go on from here.
def Stops (m : Machine) : Prop := Acc (fun n m => Running.step m = .ok .next n) m

theorem Stops.ends {m : Machine} (stops : m.Stops) : ∃ ending n, m.EndsAs ending n ∧ ending ≠ .unfinished := by
  induction stops with
  | intro m _ ih =>
    cases step : Running.step m with
    | error stop n =>
      refine ⟨.stopped stop, n, ⟨1, fun budget enough => ?_⟩, by simp⟩
      obtain ⟨more, rfl⟩ := Nat.exists_eq_add_of_le enough
      rw [Nat.add_comm, run, step]
    | ok signal n =>
      cases signal with
      | halt => exact ⟨.halted, n, ends_halt step, by simp⟩
      | next =>
        obtain ⟨ending, o, ⟨least, ends⟩, stopped⟩ := ih n step
        refine ⟨ending, o, ⟨least + 1, fun budget enough => ?_⟩, stopped⟩
        obtain ⟨more, rfl⟩ := Nat.exists_eq_add_of_le enough
        rw [Nat.add_right_comm, run, step]
        exact ends (least + more) (by omega)

variable {pool : Array Value} {m n : Machine}

theorem Sound.ways_end (sound : m.Sound pool) : Acc (fun b a => m.frame.routine.code.Follows a b) m.frame.next := by
  obtain ⟨nested, h, -, good, -⟩ := sound.chain.move
  exact good.safe.ways_end

-- A function stops if the one that called it stops whenever it comes back there. Inside, the induction is on the ways
-- through the code that is left; outside, on how many more calls there is room for.
theorem Sound.stops_below (levels : Nat) {m : Machine} (sound : m.Sound pool)
    (deep : frameCapacity ≤ m.callers.size + 1 + levels)
    (back : ∀ n : Machine, n.Sound pool → m.callers = n.callers.push n.frame → n.Stops) : m.Stops := by
  induction levels using Nat.strongRecOn generalizing m with
  | _ levels deeper =>
    have ways := sound.ways_end
    generalize code : m.frame.routine.code = c at ways
    generalize place : m.frame.next = a at ways
    generalize called : m.callers = callers at deep back
    induction ways generalizing m with
    | intro a _ further =>
      refine .intro m fun n step => ?_
      have later := sound.after_step step
      cases Running.step_moves step with
      | along follows same frame =>
        rw [code, place] at follows
        exact further _ follows later (by rw [frame, code]) (by rw [frame]) (same.trans called)
      | @into i item call room same =>
        have follows : c.Follows a (m.frame.next + i.opcode.width) := by
          rw [← code, ← place]
          exact ⟨_, item, by simp only [Instruction.GoesOn, call]⟩
        rw [called] at same room
        refine deeper (levels - 1) (by omega) later ?_ ?_
        · rw [same, Array.size_push]
          omega
        · intro o sound returned
          rw [same] at returned
          obtain ⟨frame, rest⟩ := Array.push_eq_push.mp returned
          exact further _ follows sound (by rw [← frame, code]) (by rw [← frame]) rest.symm
      | back same _ => exact back n later (called ▸ same)

theorem Sound.stops (sound : m.Sound pool) (main : m.callers = #[]) : m.Stops := by
  refine sound.stops_below frameCapacity (by omega) fun n _ called => ?_
  rw [main] at called
  simp at called

end Machine
end StackScript
