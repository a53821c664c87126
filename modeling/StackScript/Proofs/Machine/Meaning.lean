import StackScript.Proofs.Machine.Safe

-- What the meaning of values gives: sound values from sound values, and no fault that only malformed code has.
namespace StackScript

-- The faults that only malformed code has.
def Fault.Malformed : Fault → Prop
  | stackUnderflow | unknownOpCode .. | truncatedInstruction .. | invalidOperand .. => True
  | _ => False

-- Only malformed code has so many locals that the size of a stack does not fit into a word.
def Stop.Malformed : Stop → Prop
  | fault f => f.Malformed
  | additionOverflow => True

-- A value with nothing inside, or a fault that a program may have.
def Plain : Except Fault Value → Prop
  | .ok v => v.callee? = none ∧ v.parts = []
  | .error f => ¬ f.Malformed

namespace Operation

theorem onIntegers_plain (a b : Int32) (op : OpCode) : Plain (onIntegers a b op) := by
  unfold onIntegers
  split
  case h_4 => split <;> simp [Plain, Value.callee?, Value.parts, Fault.Malformed]
  all_goals simp [Plain, Value.callee?, Value.parts, Fault.Malformed, unsupported]

theorem onFloats_plain (x y : Binary64) (op : OpCode) : Plain (onFloats x y op) := by
  unfold onFloats
  split <;> simp [Plain, Value.callee?, Value.parts, Fault.Malformed, unsupported]

theorem onOthers_plain (lhs rhs : Value) (op : OpCode) : Plain (onOthers lhs rhs op) := by
  unfold onOthers
  split
  case h_5 => split <;> simp [Plain, Value.callee?, Value.parts, Fault.Malformed, unsupported]
  all_goals simp [Plain, Value.callee?, Value.parts, Fault.Malformed, unsupported]

theorem binary_plain (op : OpCode) (lhs rhs : Value) : Plain (binary op lhs rhs) := by
  unfold binary
  split
  · exact onIntegers_plain _ _ _
  · split
    · exact onFloats_plain _ _ _
    · exact onOthers_plain _ _ _

theorem unary_plain (op : OpCode) (operand : Value) : Plain (unary op operand) := by
  unfold unary
  split <;> simp [Plain, Value.callee?, Value.parts, Fault.Malformed]

end Operation

def Value.SoundResult (pool : Array Value) : Except Fault Value → Prop
  | .ok v => v.Sound pool
  | .error f => ¬ f.Malformed

namespace Value

-- A property that a container has when its parts have it, and that its parts have when it has it.
structure Hereditary (P : Value → Prop) : Prop where
  outer : ∀ {v : Value}, v.callee? = none → (∀ part ∈ v.parts, P part) → P v
  inside : ∀ {v : Value}, P v → ∀ part ∈ v.parts, P part

theorem sound_hereditary (pool : Array Value) : Hereditary (Sound pool) :=
  ⟨fun noFunction parts => .of (fun f n called => by rw [noFunction] at called; cases called) parts,
    fun sound _ present => sound.inside present⟩

def Gives (P : Value → Prop) : Except Fault Value → Prop
  | .ok v => P v
  | .error f => ¬ f.Malformed

variable {P : Value → Prop}

theorem Hereditary.simple (hereditary : Hereditary P) {v : Value} (noFunction : v.callee? = none) (noParts : v.parts = []) :
    P v := by
  refine hereditary.outer noFunction fun part present => ?_
  rw [noParts] at present
  cases present

theorem Hereditary.null (hereditary : Hereditary P) : P .null := hereditary.simple rfl rfl

theorem Hereditary.plain (hereditary : Hereditary P) {r : Except Fault Value} (plain : Plain r) : Gives P r := by
  cases r with
  | ok v => exact hereditary.simple plain.1 plain.2
  | error f => exact plain

end Value

theorem Plain.sound {r : Except Fault Value} (plain : Plain r) (pool : Array Value) : Value.SoundResult pool r :=
  (Value.sound_hereditary pool).plain plain

namespace Operation

variable {P : Value → Prop} {pool : Array Value}

theorem null_sound : Value.null.Sound pool := .simple rfl rfl

theorem key_plain (v : Value) {f : Fault} (failed : key v = .error f) : ¬ f.Malformed := by
  unfold key at failed
  split at failed
  · cases failed
  · cases failed
    exact id

theorem index_gives (hereditary : Value.Hereditary P) {target position : Value} (holds : P target) :
    Value.Gives P (index target position) := by
  have inside := hereditary.inside holds
  unfold index
  split
  · rename_i items n
    simp only [Value.Gives]
    split
    · exact hereditary.null
    · cases found : items[n.toInt.toNat]? with
      | none => exact hereditary.null
      | some v => exact inside v (List.mem_of_getElem? found)
  · exact id
  · rename_i pairs
    cases keyed : key position with
    | error f => exact key_plain position keyed
    | ok k =>
      show P ((Value.find? k pairs).getD .null)
      cases found : Value.find? k pairs with
      | none => exact hereditary.null
      | some v =>
        obtain ⟨pair, present, rfl⟩ := Option.map_eq_some_iff.mp found
        exact inside _ (List.mem_map.mpr ⟨pair, List.mem_of_find?_eq_some present, rfl⟩)
  · exact id

theorem index_sound {target position : Value} (sound : target.Sound pool) :
    Value.SoundResult pool (index target position) := index_gives (Value.sound_hereditary pool) sound

theorem native_gives (hereditary : Value.Hereditary P) {b : Builtin} {args : List Value} (each : ∀ v ∈ args, P v) :
    Value.Gives P ((native b args).map Prod.fst) := by
  unfold native
  split
  · exact hereditary.null
  · exact hereditary.simple rfl rfl
  · exact hereditary.simple rfl rfl
  · rename_i items
    have inside := hereditary.inside (each (.array items) (by simp))
    show P (items.head?.getD .null)
    cases found : items.head? with
    | none => exact hereditary.null
    | some v => exact inside v (List.mem_of_mem_head? found)
  · rename_i items
    have inside := hereditary.inside (each (.array items) (by simp))
    show P (items.getLast?.getD .null)
    cases found : items.getLast? with
    | none => exact hereditary.null
    | some v => exact inside v (List.mem_of_getLast? found)
  · exact hereditary.null
  · rename_i first items
    have inside := hereditary.inside (each (.array (first :: items)) (by simp))
    exact hereditary.outer rfl fun v present => inside v (List.mem_cons_of_mem _ present)
  · rename_i items v
    have inside := hereditary.inside (each (.array items) (by simp))
    refine hereditary.outer rfl fun w present => ?_
    rcases List.mem_append.mp present with old | new
    · exact inside w old
    · rw [List.mem_singleton.mp new]
      exact each v (by simp)
  · exact id

theorem call_gives (hereditary : Value.Hereditary P) {b : Builtin} {args : List Value} (each : ∀ v ∈ args, P v) :
    Value.Gives P ((call b args).map Prod.fst) := by
  unfold call
  split
  · split
    · exact native_gives hereditary each
    · exact id
  · exact native_gives hereditary each

theorem call_sound {b : Builtin} {args : List Value} (each : ∀ v ∈ args, v.Sound pool) :
    Value.SoundResult pool ((call b args).map Prod.fst) := call_gives (Value.sound_hereditary pool) each

end Operation

namespace Running

variable {P : Value → Prop} {pool : Array Value}

theorem insert_gives {k : Key} {v : Value} {pairs : List (Key × Value)} (new : P v) (old : ∀ pair ∈ pairs, P pair.2) :
    ∀ pair ∈ Value.insert k v pairs, P pair.2 := by
  induction pairs with
  | nil =>
    intro pair present
    rw [List.mem_singleton.mp present]
    exact new
  | cons first rest ih =>
    have others := ih fun pair present => old pair (List.mem_cons_of_mem _ present)
    have head := old first List.mem_cons_self
    intro pair present
    rw [Value.insert] at present
    split at present
    · rcases List.mem_cons.mp present with rfl | later
      · exact new
      · exact old pair later
    · rcases List.mem_cons.mp present with rfl | later
      · exact new
      · exact old pair (List.mem_cons_of_mem _ later)
    · rcases List.mem_cons.mp present with rfl | later
      · exact head
      · exact others pair later

theorem pairUp_gives (hereditary : Value.Hereditary P) {items : List Value} {pairs : List (Key × Value)}
    (each : ∀ v ∈ items, P v) (old : ∀ pair ∈ pairs, P pair.2) : Value.Gives P (pairUp items pairs) := by
  have done (pairs : List (Key × Value)) (old : ∀ pair ∈ pairs, P pair.2) : P (Value.hash pairs) := by
    refine hereditary.outer rfl fun part present => ?_
    obtain ⟨pair, inside, rfl⟩ := List.mem_map.mp present
    exact old pair inside
  induction items, pairs using pairUp.induct with
  | case1 k v rest pairs ih =>
    rw [pairUp]
    cases keyed : Operation.key k with
    | error f => exact Operation.key_plain k keyed
    | ok key =>
      refine ih key (fun w present => each w (by simp [present])) ?_
      exact insert_gives (each v (by simp)) old
  | case2 items pairs short =>
    rw [pairUp]
    · exact done pairs old
    · exact short

theorem pairUp_sound {items : List Value} {pairs : List (Key × Value)} (each : ∀ v ∈ items, v.Sound pool)
    (old : ∀ pair ∈ pairs, pair.2.Sound pool) : Value.SoundResult pool (pairUp items pairs) :=
  pairUp_gives (Value.sound_hereditary pool) each old

end Running
end StackScript
