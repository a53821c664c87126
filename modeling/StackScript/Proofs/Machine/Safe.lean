import StackScript.Machine.Step
import StackScript.Proofs.Compiler.Balanced

-- Code that can be run from a point on, with the stack at a height above the locals, without ever being malformed.
namespace StackScript

structure Region where
  code : Code
  locals : Nat
  captured : Nat
  nested : Bool -- a function body, not the main program

def Routine.region (f : Routine) (captured : Nat) : Region := ⟨f.code, f.locals, captured, true⟩

-- The instructions that read a name and those that write one, with operands in range.

def Region.Reads (r : Region) : Instruction → Prop
  | ⟨.getGlobal, [_]⟩ => True
  | ⟨.getLocal, [n]⟩ => n < r.locals
  | ⟨.getBuiltin, [n]⟩ => n < Builtin.all.length
  | ⟨.getFree, [n]⟩ => n < r.captured
  | ⟨.currentClosure, []⟩ => r.nested = true
  | _ => False

def Region.Writes (r : Region) : Instruction → Prop
  | ⟨.setGlobal, [n]⟩ | ⟨.assignGlobal, [n]⟩ => n < Machine.globalCapacity
  | ⟨.setLocal, [n]⟩ | ⟨.assignLocal, [n]⟩ => n < r.locals
  | _ => False

-- Jumps only lead forward, so that a derivation follows every way through the code to its end. It also goes into the
-- functions that the code makes, but not into those that it calls.
inductive Safe (pool : Array Value) : Region → Nat → Nat → Prop where
  | ends {r : Region} : r.nested = false → Safe pool r r.code.size 0
  | plain {r : Region} {a takes gives h : Nat} {i : Instruction} : r.code.itemAt a = .instruction i →
      i.effect? = some (takes, gives) → i.opcode ≠ .returnValue →
      Safe pool r (a + i.opcode.width) (h + gives) → Safe pool r a (h + takes)
  | read {r : Region} {a h : Nat} {i : Instruction} : r.code.itemAt a = .instruction i → r.Reads i →
      Safe pool r (a + i.opcode.width) (h + 1) → Safe pool r a h
  | write {r : Region} {a h : Nat} {i : Instruction} : r.code.itemAt a = .instruction i → r.Writes i →
      Safe pool r (a + i.opcode.width) h → Safe pool r a (h + 1)
  | literal {r : Region} {a n h : Nat} {v : Value} : r.code.itemAt a = .instruction ⟨.constant, [n]⟩ →
      pool[n]? = some v → v.Literal → Safe pool r (a + OpCode.constant.width) (h + 1) → Safe pool r a h
  | function {r : Region} {a n h : Nat} {f : Routine} : r.code.itemAt a = .instruction ⟨.constant, [n]⟩ →
      pool[n]? = some (.function f) → f.parameters ≤ f.locals → f.locals ≤ 255 → Safe pool (f.region 0) 0 0 →
      Safe pool r (a + OpCode.constant.width) (h + 1) → Safe pool r a h
  | closure {r : Region} {a n m h : Nat} {f : Routine} : r.code.itemAt a = .instruction ⟨.closure, [n, m]⟩ →
      pool[n]? = some (.function f) → f.parameters ≤ f.locals → f.locals ≤ 255 → Safe pool (f.region m) 0 0 →
      Safe pool r (a + OpCode.closure.width) (h + 1) → Safe pool r a (h + m)
  | jump {r : Region} {a t h : Nat} : r.code.itemAt a = .instruction ⟨.jump, [t]⟩ → Safe pool r t h → Safe pool r a h
  | jumpUnless {r : Region} {a t h : Nat} : r.code.itemAt a = .instruction ⟨.jumpUnless, [t]⟩ → Safe pool r t h →
      Safe pool r (a + OpCode.jumpUnless.width) h → Safe pool r a (h + 1)
  | returnValue {r : Region} {a h : Nat} : r.code.itemAt a = .instruction ⟨.returnValue, []⟩ → Safe pool r a (h + 1)
  | returnNull {r : Region} {a h : Nat} : r.code.itemAt a = .instruction ⟨.returnNull, []⟩ → Safe pool r a h

-- A function among the constants that can be called once it has captured so many values.
structure Routine.Runs (f : Routine) (pool : Array Value) (captured : Nat) : Prop where
  pooled : .function f ∈ pool
  parameters : f.parameters ≤ f.locals
  locals : f.locals ≤ 255
  safe : Safe pool (f.region captured) 0 0

theorem Safe.grows {pool more : Array Value} (grows : pool.toList <+: more.toList) {r : Region} {a h : Nat}
    (safe : Safe pool r a h) : Safe more r a h := by
  have kept {n : Nat} {v : Value} (present : pool[n]? = some v) : more[n]? = some v := by
    rw [← Array.getElem?_toList] at present ⊢
    exact prefix_some grows present
  induction safe with
  | ends outside => exact .ends outside
  | plain item effect other _ ih => exact .plain item effect other ih
  | read item reads _ ih => exact .read item reads ih
  | write item writes _ ih => exact .write item writes ih
  | literal item present literal _ ih => exact .literal item (kept present) literal ih
  | function item present parameters locals _ _ inner ih =>
    exact .function item (kept present) parameters locals inner ih
  | closure item present parameters locals _ _ inner ih =>
    exact .closure item (kept present) parameters locals inner ih
  | jump item _ ih => exact .jump item ih
  | jumpUnless item _ _ taken ih => exact .jumpUnless item taken ih
  | returnValue item => exact .returnValue item
  | returnNull item => exact .returnNull item

theorem Routine.Runs.grows {f : Routine} {pool more : Array Value} {captured : Nat}
    (grows : pool.toList <+: more.toList) (runs : f.Runs pool captured) : f.Runs more captured :=
  ⟨Array.mem_toList_iff.mp (grows.mem (Array.mem_toList_iff.mpr runs.pooled)), runs.parameters, runs.locals,
    runs.safe.grows grows⟩

namespace Value

def parts : Value → List Value
  | array items => items
  | hash pairs => pairs.map Prod.snd
  | closure _ captured => captured
  | _ => []

def callee? : Value → Option (Routine × Nat)
  | function f => some (f, 0)
  | closure f captured => some (f, captured.length)
  | _ => none

-- Every function in a value can be called.
inductive Sound (pool : Array Value) : Value → Prop where
  | of {v : Value} : (∀ f n, v.callee? = some (f, n) → f.Runs pool n) → (∀ part ∈ v.parts, Sound pool part) →
      Sound pool v

theorem Sound.callee {pool : Array Value} {v : Value} {f : Routine} {n : Nat} (sound : v.Sound pool)
    (called : v.callee? = some (f, n)) : f.Runs pool n := by
  cases sound with
  | of runs _ => exact runs f n called

theorem Sound.inside {pool : Array Value} {v w : Value} (sound : v.Sound pool) (present : w ∈ v.parts) :
    w.Sound pool := by
  cases sound with
  | of _ parts => exact parts w present

theorem Sound.simple {pool : Array Value} {v : Value} (noFunction : v.callee? = none) (noParts : v.parts = []) :
    v.Sound pool :=
  .of (fun f n called => by rw [noFunction] at called; cases called) (fun part present => by rw [noParts] at present; cases present)

theorem Sound.array {pool : Array Value} {items : List Value} (each : ∀ v ∈ items, v.Sound pool) :
    (Value.array items).Sound pool :=
  .of (fun f n called => by cases called) each

theorem Sound.grows {pool more : Array Value} (grows : pool.toList <+: more.toList) {v : Value} (sound : v.Sound pool) :
    v.Sound more := by
  induction sound with
  | of runs _ ih => exact .of (fun f n called => (runs f n called).grows grows) ih

end Value
end StackScript
