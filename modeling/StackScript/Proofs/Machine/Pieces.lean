import StackScript.Proofs.Machine.Meaning

-- What the pieces that instructions are made of do to a sound machine.
namespace StackScript.Running

-- A step that fails fails as programs may, and leaves sound globals.
def Ensures {α : Type} (pool : Array Value) (x : Running α) (m : Machine) (Q : α → Machine → Prop) : Prop :=
  match x m with
  | .ok a n => Q a n
  | .error stop n => ¬ stop.Malformed ∧ ∀ v ∈ n.globals, v.Sound pool

-- A machine that has come from another and runs at the same place, with so much on its stack.
structure Holding (pool : Array Value) (m n : Machine) (size : Nat) : Prop where
  constants : n.constants = m.constants
  frame : n.frame = m.frame
  callers : n.callers = m.callers
  globals : ∀ v ∈ n.globals, v.Sound pool
  stack : ∀ v ∈ n.stack, v.Sound pool
  size : n.stack.size = size
  small : n.stack.size ≤ Machine.stackCapacity

section
variable {α β : Type} {pool : Array Value} {m n : Machine} {s : Nat}

theorem ensures_bind {x : Running α} {f : α → Running β} {Q : β → Machine → Prop}
    (first : Ensures pool x m fun a n => Ensures pool (f a) n Q) : Ensures pool (x >>= f) m Q := by
  unfold Ensures at first ⊢
  simp only [bind, EStateM.bind]
  cases run : x m with
  | ok a n => simpa only [run] using first
  | error stop n => simpa only [run] using first

theorem ensures_mono {x : Running α} {P Q : α → Machine → Prop} (first : Ensures pool x m P)
    (each : ∀ a n, P a n → Q a n) : Ensures pool x m Q := by
  unfold Ensures at first ⊢
  cases run : x m with
  | ok a n =>
    rw [run] at first
    exact each a n first
  | error stop n =>
    rw [run] at first
    exact first

theorem ensures_then {x : Running α} {f : α → Running β} {P : α → Machine → Prop} {Q : β → Machine → Prop}
    (first : Ensures pool x m P) (next : ∀ a n, P a n → Ensures pool (f a) n Q) : Ensures pool (x >>= f) m Q :=
  ensures_bind (ensures_mono first next)

theorem ensures_get {f : Machine → Running β} {Q : β → Machine → Prop} (next : Ensures pool (f m) m Q) :
    Ensures pool (get >>= f) m Q := next

theorem mem_of_mem_pop {xs : Array Value} {v : Value} (present : v ∈ xs.pop) : v ∈ xs := by
  obtain ⟨i, _, rfl⟩ := Array.mem_iff_getElem.mp present
  rw [Array.getElem_pop]
  exact Array.getElem_mem _

theorem mem_of_mem_shrink {xs : Array Value} {n : Nat} {v : Value} (present : v ∈ xs.shrink n) : v ∈ xs := by
  obtain ⟨i, _, rfl⟩ := Array.mem_iff_getElem.mp present
  rw [Array.getElem_shrink]
  exact Array.getElem_mem _

theorem push_ensures {v : Value} (holding : Holding pool m n s) (sound : v.Sound pool) :
    Ensures pool (push v) n fun _ o => Holding pool m o (s + 1) := by
  unfold Ensures push
  by_cases full : Machine.stackCapacity ≤ n.stack.size
  · simp only [full, if_true]
    exact ⟨id, holding.globals⟩
  · simp only [full, if_false]
    refine ⟨holding.constants, holding.frame, holding.callers, holding.globals, ?_, ?_, ?_⟩
    · intro w present
      rcases Array.mem_push.mp present with old | rfl
      · exact holding.stack w old
      · exact sound
    · simp [holding.size]
    · simp only [Array.size_push]
      omega

theorem pop_ensures (holding : Holding pool m n (s + 1)) :
    Ensures pool pop n fun v o => v.Sound pool ∧ Holding pool m o s := by
  have size := holding.size
  unfold Ensures pop
  have top : n.stack.back? = some n.stack[s] := by
    rw [Array.back?_eq_getElem?, ← Array.getElem?_eq_getElem, size, Nat.add_sub_cancel]
  simp only [top]
  refine ⟨holding.stack _ (Array.getElem_mem _), holding.constants, holding.frame, holding.callers, holding.globals, ?_, ?_,
    ?_⟩
  · intro v present
    exact holding.stack v (mem_of_mem_pop present)
  · simp [size]
  · simp only [Array.size_pop]
    have := holding.small
    omega

theorem popMany_ensures {k : Nat} (holding : Holding pool m n (s + k)) :
    Ensures pool (popMany k) n fun vs o => vs.length = k ∧ (∀ v ∈ vs, v.Sound pool) ∧ Holding pool m o s := by
  have size := holding.size
  have small := holding.small
  unfold Ensures popMany
  rw [if_pos (by omega)]
  refine ⟨?_, ?_, holding.constants, holding.frame, holding.callers, holding.globals, ?_, ?_, ?_⟩
  · simp
    omega
  · intro v present
    obtain ⟨i, _, rfl⟩ := Array.mem_extract_iff_getElem.mp (Array.mem_toList_iff.mp present)
    exact holding.stack _ (Array.getElem_mem _)
  · intro v present
    obtain ⟨i, -, rfl⟩ := Array.mem_iff_getElem.mp present
    simp only [Array.getElem_shrink]
    exact holding.stack _ (Array.getElem_mem _)
  · simp
    omega
  · simp
    omega

theorem drop_ensures (holding : Holding pool m n (s + 1)) : Ensures pool drop n fun _ o => Holding pool m o s := by
  have size := holding.size
  have small := holding.small
  refine ⟨holding.constants, holding.frame, holding.callers, holding.globals, ?_, ?_, ?_⟩
  · intro v present
    exact holding.stack v (mem_of_mem_pop present)
  · simp [size]
  · simp only [Array.size_pop]
    omega

theorem ofExcept_ensures {r : Except Fault Value} (holding : Holding pool m n s) (sound : Value.SoundResult pool r) :
    Ensures pool (ofExcept r) n fun v o => v.Sound pool ∧ Holding pool m o s := by
  cases r with
  | ok v => exact ⟨sound, holding⟩
  | error f => exact ⟨sound, holding.globals⟩

theorem global_ensures (i : Nat) (holding : Holding pool m n s) :
    Ensures pool (global i) n fun v o => v.Sound pool ∧ Holding pool m o s := by
  refine ⟨?_, holding⟩
  cases found : n.globals[i]? with
  | none => exact Operation.null_sound
  | some v => exact holding.globals v (Array.mem_of_getElem? found)

theorem setGlobal_ensures {op : OpCode} {i : Nat} {v : Value} (holding : Holding pool m n s) (sound : v.Sound pool)
    (below : i < Machine.globalCapacity) : Ensures pool (setGlobal op i v) n fun _ o => Holding pool m o s := by
  unfold Ensures setGlobal
  rw [if_pos below]
  refine ⟨holding.constants, holding.frame, holding.callers, ?_, holding.stack, holding.size, holding.small⟩
  intro w present
  rcases Array.mem_or_eq_of_mem_setIfInBounds present with old | rfl
  · rw [← Array.mem_toList_iff, Array.toList_appendList] at old
    rcases List.mem_append.mp old with before | added
    · exact holding.globals w (Array.mem_toList_iff.mp before)
    · rw [List.eq_of_mem_replicate added]
      exact Operation.null_sound
  · exact sound

theorem getLocal_ensures {op : OpCode} {i : Nat} (holding : Holding pool m n s) (below : m.frame.base + i < s) :
    Ensures pool (getLocal op i) n fun v o => v.Sound pool ∧ Holding pool m o s := by
  have size := holding.size
  have present : n.frame.base + i < n.stack.size := by
    rw [holding.frame, size]
    exact below
  unfold Ensures getLocal
  rw [Array.getElem?_eq_getElem present]
  exact ⟨holding.stack _ (Array.getElem_mem _), holding⟩

theorem setLocal_ensures {op : OpCode} {i : Nat} {v : Value} (holding : Holding pool m n s) (sound : v.Sound pool)
    (below : m.frame.base + i < s) : Ensures pool (setLocal op i v) n fun _ o => Holding pool m o s := by
  have size := holding.size
  unfold Ensures setLocal
  rw [if_pos (by rw [holding.frame, size]; exact below)]
  refine ⟨holding.constants, holding.frame, holding.callers, holding.globals, ?_, by simpa using size,
    by simpa using holding.small⟩
  intro w present
  rcases Array.mem_or_eq_of_mem_setIfInBounds present with old | rfl
  · exact holding.stack w old
  · exact sound

theorem captured_ensures {op : OpCode} {i : Nat} (holding : Holding pool m n s) (below : i < m.frame.captured.length)
    (each : ∀ v ∈ m.frame.captured, v.Sound pool) :
    Ensures pool (captured op i) n fun v o => v.Sound pool ∧ Holding pool m o s := by
  unfold Ensures captured
  rw [holding.frame, List.getElem?_eq_getElem below]
  exact ⟨each _ (List.getElem_mem _), holding⟩

theorem constant_ensures {op : OpCode} {i : Nat} {v : Value} (holding : Holding pool m n s)
    (present : m.constants[i]? = some v) : Ensures pool (constant op i) n fun w o => w = v ∧ Holding pool m o s := by
  unfold Ensures constant
  rw [holding.constants, present]
  exact ⟨rfl, holding⟩

end
end StackScript.Running
