import StackScript.Proofs.Machine.Neutral
import StackScript.Proofs.Machine.Slots

-- How often a run gives a slot a value. A function that is running gives its own slots values as its code says, and the
-- functions that it calls lie above them; a slot of the program can get a value from any function.
namespace StackScript

namespace Machine

-- The slot that the next instruction gives a value, with the slots of functions as places on the stack.
def written? (m : Machine) : Option Slot := (m.frame.routine.code.writeAt? m.frame.next).map (Slot.above m.frame.base)

-- The machines that a run goes through, each before one of its steps, for as long as so many callers wait.
def trail (depth : Nat) : (budget : Nat) → Machine → List Machine
  | 0, _ => []
  | budget + 1, m =>
    if m.callers.size < depth then []
    else m :: match Running.step m with
      | .ok .next n => trail depth budget n
      | _ => []

end Machine

theorem Slot.above_inj {base : Nat} {s t : Slot} (same : s.above base = t.above base) : s = t := by
  cases s <;> cases t <;> simp [above] at same <;> rw [same]

-- From its next instruction on, a function gives a place no more than so many values.
def Frame.AtMost (f : Frame) (place : Slot) (count : Nat) : Prop :=
  ∀ s : Slot, s.above f.base = place → f.routine.code.AtMost s count f.next

namespace Machine

open Running (step goto)

variable {pool : Array Value} {m n : Machine} {place : Slot} {count depth : Nat} {home : Frame}

theorem written_above {s : Slot} :
    m.written? = some (s.above m.frame.base) ↔ m.frame.routine.code.writeAt? m.frame.next = some s := by
  rw [written?, Option.map_eq_some_iff]
  constructor
  · rintro ⟨t, written, same⟩
    rw [written, Slot.above_inj same]
  · intro written
    exact ⟨s, written, rfl⟩

theorem spend (most : m.frame.AtMost place count) : ∃ left, (if m.written? = some place then 1 else 0) + left = count ∧
    ∀ next, m.frame.routine.code.Follows m.frame.next next → Frame.AtMost { m.frame with next } place left := by
  by_cases own : ∃ s : Slot, s.above m.frame.base = place
  · obtain ⟨s, rfl⟩ := own
    obtain ⟨left, total, rest⟩ := (most s rfl).spend
    refine ⟨left, ?_, fun next follows t same => ?_⟩
    · simp only [written_above]
      exact total
    · rw [Slot.above_inj same]
      exact rest next follows
  · refine ⟨count, ?_, fun next _ s same => absurd ⟨s, same⟩ own⟩
    rw [if_neg, Nat.zero_add]
    intro written
    obtain ⟨s, -, same⟩ := Option.map_eq_some_iff.mp written
    exact own ⟨s, same⟩

-- Of the functions that are running, the one at some depth, called `home`, gives a place only so many values more, and
-- those above it give it none.
structure Spends (depth : Nat) (home : Frame) (place : Slot) (count : Nat) (frames : Array Frame) : Prop where
  home : ∃ next, frames[depth]? = some { home with next }
  each : ∀ level f, depth ≤ level → frames[level]? = some f → f.AtMost place (if level = depth then count else 0)

namespace Spends

variable {frames : Array Frame} {f : Frame}

theorem inside (spends : Spends depth home place count frames) : depth < frames.size := by
  obtain ⟨next, present⟩ := spends.home
  obtain ⟨below, -⟩ := Array.getElem?_eq_some_iff.mp present
  exact below

theorem deep (spends : Spends depth home place count (frames.push f)) : depth ≤ frames.size := by
  have inside := spends.inside
  rw [Array.size_push] at inside
  exact Nat.le_of_lt_succ inside

theorem top (spends : Spends depth home place count (frames.push f)) :
    f.AtMost place (if frames.size = depth then count else 0) :=
  spends.each _ _ spends.deep Array.getElem?_push_size

theorem push (spends : Spends depth home place count frames) (quiet : f.AtMost place 0) :
    Spends depth home place count (frames.push f) := by
  have inside := spends.inside
  constructor
  · obtain ⟨next, present⟩ := spends.home
    exact ⟨next, by rw [Array.getElem?_push_lt inside, ← present, Array.getElem?_eq_getElem inside]⟩
  · intro level g above present
    by_cases top : level = frames.size
    · rw [top, Array.getElem?_push_size, Option.some.injEq] at present
      rw [if_neg (by omega), ← present]
      exact quiet
    · obtain ⟨below, -⟩ := Array.getElem?_eq_some_iff.mp present
      rw [Array.size_push] at below
      have lower : level < frames.size := by omega
      rw [Array.getElem?_push_lt lower, ← Array.getElem?_eq_getElem lower] at present
      exact spends.each level g above present

theorem pop (spends : Spends depth home place count (frames.push f)) (inside : depth < frames.size) :
    Spends depth home place count frames := by
  constructor
  · obtain ⟨next, present⟩ := spends.home
    rw [Array.getElem?_push_lt inside, ← Array.getElem?_eq_getElem inside] at present
    exact ⟨next, present⟩
  · intro level g above present
    obtain ⟨lower, -⟩ := Array.getElem?_eq_some_iff.mp present
    apply spends.each level g above
    rw [Array.getElem?_push_lt lower, ← present, Array.getElem?_eq_getElem lower]

theorem along {next left : Nat} (spends : Spends depth home place count (frames.push f))
    (most : Frame.AtMost { f with next } place (if frames.size = depth then left else 0))
    (others : frames.size ≠ depth → left = count) : Spends depth home place left (frames.push { f with next }) := by
  by_cases top : frames.size = depth
  · constructor
    · obtain ⟨before, present⟩ := spends.home
      rw [← top, Array.getElem?_push_size, Option.some.injEq] at present
      rw [← top, Array.getElem?_push_size, present]
      exact ⟨next, rfl⟩
    · intro level g above present
      obtain ⟨lower, -⟩ := Array.getElem?_eq_some_iff.mp present
      rw [Array.size_push] at lower
      obtain rfl : level = frames.size := by omega
      rw [Array.getElem?_push_size, Option.some.injEq] at present
      rw [← present]
      exact most
  · rw [if_neg top] at most
    rw [others top]
    have deep := spends.deep
    exact (spends.pop (by omega)).push most

end Spends

-- Only the function itself gives the place values, and only where it declares a name.
theorem Spends.writer (spends : Spends depth home place count m.frames) (written : m.written? = some place) :
    m.callers.size = depth ∧ ∃ i s, m.frame.routine.code.itemAt m.frame.next = .instruction i ∧ i.sets? = some s ∧
      s.above m.frame.base = place := by
  obtain ⟨s, here, same⟩ := Option.map_eq_some_iff.mp written
  obtain ⟨positive, i, item, sets⟩ := (spends.top s same).writer here
  refine ⟨?_, i, s, item, sets, same⟩
  by_contra other
  rw [if_neg other] at positive
  exact Nat.lt_irrefl 0 positive

-- Functions that are called later give the place no values.
def Quiet (pool : Array Value) (depth : Nat) (home : Frame) (place : Slot) : Prop := ∀ n : Machine, n.Sound pool →
  n.frame.next = 0 → (∃ next, n.callers[depth]? = some { home with next }) → n.frame.AtMost place 0

theorem Spends.step (spends : Spends depth home place count m.frames) (sound : m.Sound pool)
    (quiet : Quiet pool depth home place) (run : step m = .ok .next n) (still : depth ≤ n.callers.size) :
    ∃ left, (if m.written? = some place then 1 else 0) + left = count ∧ Spends depth home place left n.frames := by
  obtain ⟨rest, total, moved⟩ := spend spends.top
  obtain ⟨left, sum, mine, others⟩ : ∃ left, (if m.written? = some place then 1 else 0) + left = count ∧
      rest = (if m.callers.size = depth then left else 0) ∧ (m.callers.size ≠ depth → left = count) := by
    by_cases top : m.callers.size = depth
    · rw [if_pos top] at total
      exact ⟨rest, total, by rw [if_pos top], fun other => absurd top other⟩
    · rw [if_neg top] at total
      exact ⟨count, by omega, by rw [if_neg top]; omega, fun _ => rfl⟩
  have onward (next : Nat) (follows : m.frame.routine.code.Follows m.frame.next next) :
      Spends depth home place left (m.callers.push { m.frame with next }) := by
    apply spends.along
    · rw [← mine]
      exact moved next follows
    · exact others
  refine ⟨left, sum, ?_⟩
  cases Running.step_moves run with
  | @along next follows callers frame =>
    rw [frames, callers, frame]
    exact onward next follows
  | @into i item call _ callers start =>
    have goes : i.GoesOn m.frame.next (m.frame.next + i.opcode.width) := by simp only [Instruction.GoesOn, call]
    have below := onward _ ⟨i, item, goes⟩
    rw [← callers] at below
    exact below.push (quiet n (sound.after_step run) start below.home)
  | back callers size =>
    have higher : m.callers.size = n.callers.size + 1 := by rw [callers, Array.size_push]
    rw [frames, ← callers, others (by omega)]
    exact spends.pop (by omega)

theorem trail_short {budget : Nat} (short : m.callers.size < depth) : m.trail depth budget = [] := by
  cases budget with
  | zero => rfl
  | succ budget => rw [trail, if_pos short]

theorem Sound.trail {budget : Nat} (sound : m.Sound pool) : ∀ q ∈ m.trail depth budget, q.Sound pool := by
  induction budget generalizing m with
  | zero => exact fun q present => absurd present List.not_mem_nil
  | succ budget ih =>
    intro q present
    rw [Machine.trail] at present
    split at present
    · cases present
    · rcases List.mem_cons.mp present with rfl | later
      · exact sound
      · split at later
        · rename_i n run
          exact ih (sound.after_step run) q later
        · cases later

-- What a run spends, and who spends it, by induction on its steps.
theorem Spends.trail (spends : Spends depth home place count m.frames) (sound : m.Sound pool)
    (quiet : Quiet pool depth home place) (budget : Nat) :
    ((m.trail depth budget).countP fun q => q.written? = some place) ≤ count ∧
      ∀ q ∈ m.trail depth budget, ∃ left, Spends depth home place left q.frames := by
  induction budget generalizing m count with
  | zero => exact ⟨Nat.zero_le _, fun q present => absurd present List.not_mem_nil⟩
  | succ budget ih =>
    have here : (if m.written? = some place then 1 else 0) ≤ count := by
      obtain ⟨left, total, -⟩ := spend spends.top
      by_cases top : m.callers.size = depth
      · rw [if_pos top] at total
        omega
      · rw [if_neg top] at total
        omega
    rw [Machine.trail, if_neg (Nat.not_lt_of_le spends.deep)]
    simp only [List.countP_cons, decide_eq_true_eq, List.mem_cons]
    split
    · rename_i n run
      by_cases still : depth ≤ n.callers.size
      · obtain ⟨left, total, after⟩ := spends.step sound quiet run still
        obtain ⟨rest, each⟩ := ih after (sound.after_step run)
        refine ⟨by omega, ?_⟩
        rintro q (rfl | later)
        · exact ⟨count, spends⟩
        · exact each q later
      · rw [trail_short (Nat.lt_of_not_le still)]
        refine ⟨by simpa using here, ?_⟩
        rintro q (rfl | later)
        · exact ⟨count, spends⟩
        · cases later
    · refine ⟨by simpa using here, ?_⟩
      rintro q (rfl | later)
      · exact ⟨count, spends⟩
      · cases later

theorem Sound.slot_count {i : Nat} (sound : n.Sound pool) (start : n.frame.next = 0)
    (below : i < n.frame.routine.locals) (most : n.frame.routine.code.AtMost (.frame i) count 0) (budget : Nat) :
    ((n.trail n.callers.size budget).countP fun q => q.written? = some (.frame (n.frame.base + i))) ≤ count := by
  have spends : Spends n.callers.size n.frame (.frame (n.frame.base + i)) count n.frames := by
    refine ⟨⟨n.frame.next, Array.getElem?_push_size⟩, fun level f above present => ?_⟩
    obtain ⟨inside, -⟩ := Array.getElem?_eq_some_iff.mp present
    rw [frames, Array.size_push] at inside
    obtain rfl : level = n.callers.size := by omega
    rw [frames, Array.getElem?_push_size, Option.some.injEq] at present
    rw [if_pos rfl, ← present]
    intro s same
    rw [Slot.above_inj (t := .frame i) same, start]
    exact most
  refine (spends.trail sound ?_ budget).1
  -- The locals of a function that it calls lie above its own.
  rintro q sound - ⟨next, present⟩ s same
  have caller := List.mem_reverse.mpr (Array.mem_toList_iff.mpr (Array.mem_of_getElem? present))
  have above := sound.chain.base_le _ caller
  simp only at above
  cases s with
  | global k => cases same
  | frame k =>
    simp only [Slot.above, Slot.frame.injEq] at same
    omega

theorem enters (run : step m = .ok .next n) (deeper : n.callers.size = m.callers.size + 1) : n.frame.next = 0 := by
  cases Running.step_moves run with
  | along _ callers _ =>
    rw [callers] at deeper
    omega
  | into _ _ _ _ start => exact start
  | back callers _ =>
    rw [callers, Array.size_push] at deeper
    omega

theorem Sound.running {m : Machine} (sound : m.Sound pool) (called : 0 < m.callers.size) :
    m.frame.routine.Runs pool m.frame.captured.length := by
  obtain ⟨nested, h, -, good, main, -, -⟩ := sound.chain.move
  cases nested with
  | true => exact good.runs rfl
  | false =>
    have outermost : m.callers = #[] := by simpa using main rfl
    simp [outermost] at called

theorem spends_main {i : Nat} (main : m.callers = #[])
    (most : m.frame.routine.code.AtMost (.global i) count m.frame.next) : Spends 0 m.frame (.global i) count m.frames := by
  have one : m.frames = #[m.frame] := by
    rw [frames, main]
    rfl
  refine ⟨⟨m.frame.next, by rw [one]; rfl⟩, fun level f above present => ?_⟩
  obtain ⟨inside, equal⟩ := Array.getElem?_eq_some_iff.mp present
  rw [one] at inside
  obtain rfl : level = 0 := Nat.lt_one_iff.mp inside
  rw [one] at present
  cases present
  intro s same
  rw [Slot.above_inj (t := .global i) same]
  exact most

theorem quiet_global {i : Nat} (each : ∀ r, .function r ∈ pool → r.code.AtMost (.global i) 0 0) :
    Quiet pool 0 home (.global i) := by
  rintro n sound start ⟨next, present⟩ s same
  obtain ⟨called, -⟩ := Array.getElem?_eq_some_iff.mp present
  rw [Slot.above_inj (t := .global i) same, start]
  exact each _ (sound.running called).pooled

end Machine
end StackScript
