import StackScript.Compiler.Generate
import StackScript.Machine.Step
import StackScript.Proofs.Meaning.Evaluation

-- Operators, indexing and native functions mean the same on values with functions as trees and with compiled ones.
namespace StackScript

namespace Datum

theorem values_eq (ds : List Datum) : values ds = ds.map value := by
  induction ds with
  | nil => rfl
  | cons d rest ih => rw [values, ih, List.map_cons]

-- What an operator gives has no parts.
def Scalar (r : Except Fault Value) : Prop := r.map (fun v => (ofScalar v).value) = r

theorem onIntegers_scalar (a b : Int32) (op : OpCode) : Scalar (Operation.onIntegers a b op) := by
  unfold Operation.onIntegers
  split
  case h_4 => split <;> rfl
  all_goals rfl

theorem onFloats_scalar (x y : Binary64) (op : OpCode) : Scalar (Operation.onFloats x y op) := by
  unfold Operation.onFloats
  split <;> rfl

theorem onOthers_scalar (lhs rhs : Value) (op : OpCode) : Scalar (Operation.onOthers lhs rhs op) := by
  unfold Operation.onOthers
  split
  case h_5 => split <;> rfl
  all_goals rfl

theorem binary_scalar (op : OpCode) (lhs rhs : Value) : Scalar (Operation.binary op lhs rhs) := by
  unfold Operation.binary
  split
  · exact onIntegers_scalar _ _ _
  · split
    · exact onFloats_scalar _ _ _
    · exact onOthers_scalar _ _ _

theorem unary_scalar (op : OpCode) (operand : Value) : Scalar (Operation.unary op operand) := by
  unfold Operation.unary
  split <;> rfl

theorem scalar_value {r : Except Fault Value} (scalar : Scalar r) : (r.map ofScalar).map value = r := by
  cases r with
  | error f => rfl
  | ok v => exact scalar

theorem binary_value (op : OpCode) (lhs rhs : Datum) :
    (binary op lhs rhs).map value = Operation.binary op lhs.value rhs.value :=
  scalar_value (binary_scalar op lhs.value rhs.value)

theorem unary_value (op : OpCode) (operand : Datum) : (unary op operand).map value = Operation.unary op operand.value :=
  scalar_value (unary_scalar op operand.value)

theorem insert_value (k : Key) (d : Datum) (pairs : List (Key × Datum)) :
    pairValues (insert k d pairs) = Value.insert k d.value (pairValues pairs) := by
  induction pairs with
  | nil => rfl
  | cons p rest ih =>
    rw [insert, pairValues, Value.insert]
    cases k.compare p.1 with
    | lt => rfl
    | eq => rfl
    | gt => rw [← ih]; rfl

-- Keys and values that take turns, as they lie on a stack.
def alternating (items : List (Datum × Datum)) : List Value := items.flatMap fun p => [p.1.value, p.2.value]

theorem pairUp_value (items : List (Datum × Datum)) (pairs : List (Key × Datum)) :
    (pairUp items pairs).map value = Running.pairUp (alternating items) (pairValues pairs) := by
  induction items generalizing pairs with
  | nil => rfl
  | cons p rest ih =>
    rw [pairUp, show alternating (p :: rest) = p.1.value :: p.2.value :: alternating rest from rfl, Running.pairUp]
    cases Operation.key p.1.value with
    | error f => rfl
    | ok k =>
      have rest := ih (insert k p.2 pairs)
      rw [insert_value] at rest
      exact rest

theorem index_value (target position : Datum) :
    (index target position).map value = Operation.index target.value position.value := by
  unfold index
  split
  · rename_i items n
    simp only [value, Operation.index, values_eq, Except.map, List.getElem?_map]
    split
    · rfl
    · cases items[n.toInt.toNat]? <;> rfl
  · rename_i pairs
    simp only [value, Operation.index]
    cases Operation.key position.value with
    | error f => rfl
    | ok k =>
      have found : Value.find? k (pairValues pairs) = ((pairs.find? fun p => k = p.1).map Prod.snd).map value := by
        induction pairs with
        | nil => rfl
        | cons p rest ih =>
          simp only [Value.find?, pairValues, List.find?_cons] at ih ⊢
          by_cases same : k = p.1
          · simp [same]
          · simpa [same] using ih
      simp only [found, bind, Except.bind, pure, Except.pure, Except.map]
      cases (pairs.find? fun p => k = p.1).map Prod.snd <;> rfl
  · rename_i noPairs noItems
    refine scalar_value ?_
    cases target with
    | array items =>
      cases position with
      | integer n => exact absurd rfl (noItems items n rfl)
      | _ => rfl
    | hash pairs => exact absurd rfl (noPairs pairs)
    | _ => rfl

theorem native_scalar {b : Builtin} {args : List Value}
    (other : ∀ items, args = [.array items] → b ≠ .first ∧ b ≠ .last ∧ (b = .rest → items = []))
    (noPush : ∀ items v, args = [.array items, v] → b ≠ .push) :
    (Operation.native b args).map (fun r => ((ofScalar r.1).value, r.2)) = Operation.native b args := by
  unfold Operation.native
  split
  · rfl
  · rfl
  · rfl
  · exact absurd rfl (other _ rfl).1
  · exact absurd rfl (other _ rfl).2.1
  · rfl
  · exact absurd ((other _ rfl).2.2 rfl) (by simp)
  · exact absurd rfl (noPush _ _ rfl)
  · rfl

theorem array_value {d : Datum} {items : List Value} (same : d.value = .array items) :
    ∃ ds, d = .array ds ∧ values ds = items := by
  cases d with
  | array ds =>
    cases same
    exact ⟨ds, rfl, rfl⟩
  | _ => cases same

theorem call_value (b : Builtin) (args : List Datum) :
    (call b args).map (fun r => (r.1.value, r.2)) = Operation.call b (values args) := by
  unfold call
  split
  · rename_i items
    cases items <;> rfl
  · rename_i items
    simp only [Except.map, values, value, Operation.call, Operation.native, values_eq, List.getLast?_map]
    cases items.getLast? <;> rfl
  · rfl
  · rename_i items d
    simp only [Except.map, values, value, Operation.call, Operation.native, values_eq, List.map_append]
    rfl
  · rename_i notFirst notLast notRest notPush
    have scalar : (Operation.native b (values args)).map (fun r => ((ofScalar r.1).value, r.2)) =
        Operation.native b (values args) := by
      refine native_scalar (fun items same => ?_) (fun items v same => ?_)
      · obtain ⟨d, rfl⟩ : ∃ d, args = [d] := by
          rw [values_eq] at same
          obtain ⟨d, rest, rfl, -, last⟩ := List.map_eq_cons_iff.mp same
          exact ⟨d, by rw [List.map_eq_nil_iff.mp last]⟩
        rw [values, values, List.cons.injEq] at same
        obtain ⟨ds, rfl, rfl⟩ := array_value same.1
        refine ⟨fun first => notFirst ds first rfl, fun last => notLast ds last rfl, fun rest => ?_⟩
        cases ds with
        | nil => rfl
        | cons d ds => exact (notRest d ds rest rfl).elim
      · obtain ⟨d, e, rfl⟩ : ∃ d e, args = [d, e] := by
          rw [values_eq] at same
          obtain ⟨d, rest, rfl, -, others⟩ := List.map_eq_cons_iff.mp same
          obtain ⟨e, rest, rfl, -, last⟩ := List.map_eq_cons_iff.mp others
          exact ⟨d, e, by rw [List.map_eq_nil_iff.mp last]⟩
        rw [values, List.cons.injEq] at same
        obtain ⟨ds, rfl, rfl⟩ := array_value same.1
        exact fun push => notPush ds e push rfl
    have lifted (r : Except Fault (Value × List String))
        (same : r.map (fun r => ((ofScalar r.1).value, r.2)) = r) :
        (r.map fun r => (ofScalar r.1, r.2)).map (fun r => (r.1.value, r.2)) = r := by
      cases r with
      | error f => rfl
      | ok v => exact same
    refine lifted _ ?_
    unfold Operation.call
    split
    · split
      · exact scalar
      · rfl
    · exact scalar

-- The data inside a datum, and the function that it calls with what this copied.
def parts : Datum → List Datum
  | .array items => items
  | .hash pairs => pairs.map Prod.snd
  | .closure _ captured => captured
  | _ => []

def callee? : Datum → Option (Literal × List Datum)
  | .function f => some (f, [])
  | .closure f captured => some (f, captured)
  | _ => none

-- Every function in a datum is one of those that may be called.
inductive Sound (known : Literal → Prop) : Datum → Prop where
  | of {d : Datum} :
    (∀ f captured, d.callee? = some (f, captured) → known f ∧ captured.length = f.captured.length) →
    (∀ part ∈ d.parts, Sound known part) → Sound known d

variable {known : Literal → Prop}

theorem Sound.callee {d : Datum} {f : Literal} {captured : List Datum} (sound : d.Sound known)
    (called : d.callee? = some (f, captured)) : known f ∧ captured.length = f.captured.length := by
  cases sound with
  | of functions _ => exact functions f captured called

theorem Sound.inside {d e : Datum} (sound : d.Sound known) (present : e ∈ d.parts) : e.Sound known := by
  cases sound with
  | of _ parts => exact parts e present

theorem Sound.simple {d : Datum} (noFunction : d.callee? = none) (noParts : d.parts = []) : d.Sound known := by
  refine .of (fun f captured called => ?_) (fun part present => ?_)
  · rw [noFunction] at called
    cases called
  · rw [noParts] at present
    cases present

theorem Sound.array {items : List Datum} (each : ∀ d ∈ items, d.Sound known) : (Datum.array items).Sound known :=
  .of (fun f captured called => by cases called) each

theorem ofScalar_sound (v : Value) : (ofScalar v).Sound known := by
  unfold ofScalar
  split <;> exact .simple rfl rfl

theorem mapped_sound {r : Except Fault Value} {d : Datum} (done : r.map ofScalar = .ok d) : d.Sound known := by
  cases r with
  | error f => cases done
  | ok v =>
    cases done
    exact ofScalar_sound v

theorem insert_sound {k : Key} {d : Datum} {pairs : List (Key × Datum)} (new : d.Sound known)
    (old : ∀ p ∈ pairs, p.2.Sound known) : ∀ p ∈ insert k d pairs, p.2.Sound known := by
  induction pairs with
  | nil =>
    intro p present
    rw [List.mem_singleton.mp present]
    exact new
  | cons first rest ih =>
    have others := ih fun p present => old p (List.mem_cons_of_mem _ present)
    have head := old first List.mem_cons_self
    intro p present
    rw [insert] at present
    split at present
    · rcases List.mem_cons.mp present with rfl | later
      · exact new
      · exact old p later
    · rcases List.mem_cons.mp present with rfl | later
      · exact new
      · exact old p (List.mem_cons_of_mem _ later)
    · rcases List.mem_cons.mp present with rfl | later
      · exact head
      · exact others p later

theorem pairUp_sound {items : List (Datum × Datum)} {pairs : List (Key × Datum)} {d : Datum}
    (each : ∀ p ∈ items, p.2.Sound known) (old : ∀ p ∈ pairs, p.2.Sound known) (done : pairUp items pairs = .ok d) :
    d.Sound known := by
  induction items generalizing pairs with
  | nil =>
    cases done
    refine .of (fun f captured called => by cases called) (fun part present => ?_)
    obtain ⟨p, inside, rfl⟩ := List.mem_map.mp present
    exact old p inside
  | cons p rest ih =>
    rw [pairUp] at done
    cases keyed : Operation.key p.1.value with
    | error f =>
      rw [keyed] at done
      cases done
    | ok k =>
      rw [keyed] at done
      refine ih (fun q present => each q (List.mem_cons_of_mem _ present)) ?_ done
      exact insert_sound (each p List.mem_cons_self) old

theorem index_sound {target position d : Datum} (sound : target.Sound known) (done : index target position = .ok d) :
    d.Sound known := by
  unfold index at done
  split at done
  · rename_i items n
    cases done
    split
    · exact .simple rfl rfl
    · cases found : items[n.toInt.toNat]? with
      | none => exact .simple rfl rfl
      | some e => exact sound.inside (e := e) (List.mem_of_getElem? found)
  · rename_i pairs
    cases keyed : Operation.key position.value with
    | error f =>
      rw [keyed] at done
      cases done
    | ok k =>
      rw [keyed] at done
      cases done
      cases found : pairs.find? fun p => k = p.1 with
      | none => exact .simple rfl rfl
      | some p => exact sound.inside (List.mem_map.mpr ⟨p, List.mem_of_find?_eq_some found, rfl⟩)
  · exact mapped_sound done

theorem call_sound {b : Builtin} {args : List Datum} {d : Datum} {lines : List String}
    (each : ∀ e ∈ args, e.Sound known) (done : call b args = .ok (d, lines)) : d.Sound known := by
  unfold call at done
  split at done
  · rename_i items
    have inside := each (.array items) (by simp)
    cases done
    cases found : items.head? with
    | none => exact .simple rfl rfl
    | some e => exact inside.inside (e := e) (List.mem_of_mem_head? found)
  · rename_i items
    have inside := each (.array items) (by simp)
    cases done
    cases found : items.getLast? with
    | none => exact .simple rfl rfl
    | some e => exact inside.inside (e := e) (List.mem_of_getLast? found)
  · rename_i first items
    have inside := each (.array (first :: items)) (by simp)
    cases done
    exact .array fun e present => inside.inside (e := e) (List.mem_cons_of_mem _ present)
  · rename_i items e
    have inside := each (.array items) (by simp)
    cases done
    refine .array fun w present => ?_
    rcases List.mem_append.mp present with old | new
    · exact inside.inside (e := w) old
    · rw [List.mem_singleton.mp new]
      exact each e (by simp)
  · cases called : Operation.call b (values args) with
    | error f =>
      rw [called] at done
      cases done
    | ok r =>
      rw [called] at done
      cases done
      exact ofScalar_sound r.1

end Datum

theorem unary_code {operator : String} {op : OpCode} (known : Compiling.unaryOpCode? operator = some op) :
    Doing.unary operator = Datum.unary op := by
  unfold Compiling.unaryOpCode? at known
  split at known <;> cases known <;> rfl

theorem binary_code {operator : String} {op : OpCode} (known : Compiling.binaryOpCode? operator = some op)
    (lhs rhs : Datum) : Doing.binary operator lhs rhs =
      if swapped operator then Datum.binary op rhs lhs else Datum.binary op lhs rhs := by
  unfold Compiling.binaryOpCode? at known
  split at known <;> cases known <;> rfl

end StackScript
