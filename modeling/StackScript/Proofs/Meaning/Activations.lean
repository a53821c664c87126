import StackScript.Proofs.Code.Encoding
import StackScript.Proofs.Meaning.Leading
import StackScript.Proofs.Meaning.Telling
import StackScript.Proofs.Meaning.Values

-- How a running function lies on the stack of a machine.
namespace StackScript

-- What evaluating a part of a function or of the main program does not change.
structure Activation where
  finished : Finished
  lower : List Value -- what lies below its slots
  callers : Array Frame

structure Literal.CompiledTo (f : Literal) (k : Finished) (first last : Point) (scans : List Scan) : Prop where
  routine : f.routine = ⟨k.code, f.parameters.length, k.locals⟩
  lies : Layout.finish f.body k first last
  position : first.position = 0
  reflects : first.Reflects ⟨⟨f.parameters, f.own, []⟩ :: scans, f.globals, f.literals⟩
  captured : f.captured = k.captures.map Symbol.name
  distinct : f.captured.Nodup
  around : ∀ x ∈ f.captured, Scan.Within x scans
  locals : f.parameters.length ≤ k.locals
  few : k.locals ≤ 255

def Literal.Compiled (constants : Array Value) (globals : Nat) (f : Literal) : Prop :=
  ∃ k first last scans, k.constants = constants ∧ k.globals = globals ∧ f.CompiledTo k first last scans

namespace Activation

def Known (a : Activation) : Literal → Prop := Literal.Compiled a.finished.constants a.finished.globals

def slots (count : Nat) (vars : List (String × Datum)) : List Value :=
  (List.range count).map fun i => (vars[i]?.map fun v => v.2.value).getD .null

def stack (a : Activation) (vars : List (String × Datum)) (operands : List Value) : Array Value :=
  (a.lower ++ (slots a.finished.locals vars ++ operands)).toArray

theorem stack_snoc (a : Activation) (vars : List (String × Datum)) (operands : List Value) (v : Value) :
    a.stack vars (operands ++ [v]) = (a.stack vars operands).push v := by
  simp [stack]

theorem stack_append (a : Activation) (vars : List (String × Datum)) (operands more : List Value) :
    a.stack vars (operands ++ more) = a.stack vars operands ++ more.toArray := by
  simp [stack]

end Activation

def Env.Inside (e : Env) (k : Finished) : List Scan → Prop
  | [] => e.nested = false ∧ e.vars = [] ∧ e.itself = none ∧ e.captured = []
  | s :: rest => e.nested = true ∧ e.vars.map Prod.fst = s.vars ∧ e.itself.map Prod.fst = s.itself ∧
    e.captured.map Prod.fst = k.captures.map Symbol.name ∧ (k.captures.map Symbol.name).Nodup ∧
    ∀ x ∈ k.captures.map Symbol.name, Scan.Within x rest

structure Env.Agrees (e : Env) (n : Names) (k : Finished) : Prop where
  globals : e.globals = n.globals
  literals : e.literals = n.literals
  inside : e.Inside k n.scans

structure Situation.Sound (s : Situation) (known : Literal → Prop) : Prop where
  globals : ∀ n, (s.world.globals n).Sound known
  vars : ∀ v ∈ s.env.vars, v.2.Sound known
  itself : ∀ v ∈ s.env.itself, v.2.Sound known
  captured : ∀ v ∈ s.env.captured, v.2.Sound known

-- A machine stands where a situation is, with some values on the stack that were computed since the last statement.
structure Activation.Holds (a : Activation) (p : Point) (n : Names) (s : Situation) (operands : List Value)
    (m : Machine) : Prop where
  code : m.frame.routine.code = a.finished.code
  next : m.frame.next = p.position
  base : m.frame.base = a.lower.length
  captured : m.frame.captured = s.env.captured.map fun v => v.2.value
  itself : ∀ x d, s.env.itself = some (x, d) → d.value = .closure m.frame.routine m.frame.captured
  callers : m.callers = a.callers
  constants : m.constants = a.finished.constants
  stack : m.stack = a.stack s.env.vars operands
  small : m.stack.size ≤ Machine.stackCapacity
  shows : s.world.Shows m
  reflects : p.Reflects n
  agrees : s.env.Agrees n a.finished
  sound : s.Sound a.Known

theorem lookup_eq {α : Type} (pairs : List (String × α)) (x : String) :
    pairs.lookup x = ((pairs.map Prod.fst).idxOf? x).bind fun i => pairs[i]?.map Prod.snd := by
  induction pairs with
  | nil => rfl
  | cons p rest ih =>
    obtain ⟨y, a⟩ := p
    rw [List.lookup_cons, List.map_cons, List.idxOf?_cons]
    by_cases same : y = x
    · simp [same]
    · have other : (x == y) = false := by simpa using fun equal => same equal.symm
      simp only [beq_iff_eq, same, other, if_false, ih]
      cases (rest.map Prod.fst).idxOf? x <;> rfl

theorem lookup_none {α : Type} {pairs : List (String × α)} {x : String} :
    pairs.lookup x = none ↔ x ∉ pairs.map Prod.fst := by
  rw [lookup_eq]
  cases found : (pairs.map Prod.fst).idxOf? x with
  | none => simpa using found
  | some i =>
    obtain ⟨below, here, -⟩ := List.idxOf?_eq_some_iff.mp found
    have present : x ∈ pairs.map Prod.fst := List.mem_iff_getElem.mpr ⟨i, below, here⟩
    rw [List.length_map] at below
    simp [present, below]

theorem lookup_placed {α : Type} {pairs : List (String × α)} {x : String} {i : Nat}
    (found : (pairs.map Prod.fst).idxOf? x = some i) : ∃ a, pairs[i]? = some (x, a) ∧ pairs.lookup x = some a := by
  obtain ⟨below, here, -⟩ := List.idxOf?_eq_some_iff.mp found
  rw [List.getElem_map] at here
  rw [List.length_map] at below
  refine ⟨pairs[i].2, ?_, ?_⟩
  · rw [List.getElem?_eq_getElem below, ← here]
  · rw [lookup_eq, found]
    simp [below]

theorem idxOf?_distinct {names : List String} (distinct : names.Nodup) {x : String} {i : Nat}
    (here : names[i]? = some x) : names.idxOf? x = some i := by
  obtain ⟨below, same⟩ := List.getElem?_eq_some_iff.mp here
  refine List.idxOf?_eq_some_iff.mpr ⟨below, same, fun j before equal => ?_⟩
  rw [← same] at equal
  exact Nat.ne_of_lt before ((List.Nodup.getElem_inj_iff distinct).mp equal)

def Situation.Gives (s : Situation) (x : String) (symbol : Symbol) : Prop :=
  match symbol.storage with
  | .frame => s.env.vars[symbol.index]? = some (x, s.lookup x)
  | .captured => s.env.captured[symbol.index]? = some (x, s.lookup x)
  | .itself => s.env.itself = some (x, s.lookup x)
  | .global => s.lookup x = s.world.globals symbol.index
  | .native => ∃ b, Builtin.ofIndex? symbol.index = some b ∧ s.lookup x = .builtin b

theorem outer_gives {s : Situation} {x : String} {symbol : Symbol} (unknown : s.env.inner.lookup x = none)
    (place : Names.outer? s.env.globals x = some symbol.place) : s.Gives x symbol := by
  rw [Names.outer?] at place
  rw [Situation.Gives, Situation.lookup, unknown, Option.none_or]
  cases global : s.env.globals.idxOf? x with
  | some i =>
    rw [global] at place
    obtain ⟨storage, rfl⟩ := Prod.mk.inj (Option.some.inj place)
    rw [← storage]
    rfl
  | none =>
    rw [global] at place
    obtain ⟨b, found, equal⟩ := Option.map_eq_some_iff.mp place
    obtain ⟨storage, index⟩ := Prod.mk.inj equal
    rw [← storage, ← index, found]
    exact ⟨b, by cases b <;> rfl, rfl⟩

-- Where a name is not known in the innermost function, no function around knows it.
def Names.Settled (n : Names) (x : String) : Prop :=
  ∀ (s : Scan) (rest : List Scan), n.scans = s :: rest → Scan.Within x rest → s.Knows x

theorem mention_settled (n : Names) (x : String) : (n.after [.mention x]).Settled x := by
  intro s rest shape within
  obtain ⟨scans, globals, literals⟩ := n
  simp only [Names.after] at shape
  cases scans with
  | nil => cases shape
  | cons t others =>
    have further : Scan.Within x (t :: others) := by
      rw [← Scan.within_mention (y := x), shape]
      exact Scan.within_cons.mpr (.inr within)
    obtain ⟨u, more, mentioned, knows⟩ := Scan.knows_mentioned further
    rw [mentioned] at shape
    cases shape
    exact knows

section
variable {s : Situation} {x : String} {symbol : Symbol}

theorem inner_lookup (e : Env) (x : String) :
    e.inner.lookup x = ((e.vars.lookup x).or (e.itself.toList.lookup x)).or (e.captured.lookup x) := by
  rw [Env.inner, List.lookup_append, List.lookup_append]

theorem lookup_inner {d : Datum} (found : s.env.inner.lookup x = some d) : s.lookup x = d := by
  rw [Situation.lookup, found]
  rfl

theorem var_gives {i : Nat} (var : (s.env.vars.map Prod.fst).idxOf? x = some i) (place : (.frame, i) = symbol.place) :
    s.Gives x symbol := by
  obtain ⟨storage, index⟩ := Prod.mk.inj place
  obtain ⟨d, here, found⟩ := lookup_placed var
  have value : s.lookup x = d := lookup_inner (by rw [inner_lookup, found]; rfl)
  rw [Situation.Gives, ← storage, ← index, value]
  exact here

theorem itself_gives (noVar : s.env.vars.lookup x = none) (own : s.env.itself.map Prod.fst = some x)
    (place : (.itself, 0) = symbol.place) : s.Gives x symbol := by
  obtain ⟨storage, -⟩ := Prod.mk.inj place
  obtain ⟨⟨y, d⟩, found, rfl⟩ := Option.map_eq_some_iff.mp own
  have value : s.lookup y = d := lookup_inner (by rw [inner_lookup, noVar, found]; simp)
  rw [Situation.Gives, ← storage, value]
  exact found

theorem captured_gives (noVar : s.env.vars.lookup x = none) (noItself : s.env.itself.toList.lookup x = none)
    (distinct : (s.env.captured.map Prod.fst).Nodup) (here : (s.env.captured.map Prod.fst)[symbol.index]? = some x)
    (storage : .captured = symbol.storage) : s.Gives x symbol := by
  obtain ⟨d, here, found⟩ := lookup_placed (idxOf?_distinct distinct here)
  have value : s.lookup x = d := lookup_inner (by rw [inner_lookup, noVar, noItself, found]; rfl)
  rw [Situation.Gives, ← storage, value]
  exact here

end

-- A name means what lies at its place. It is looked for as it was placed: among the names of the function, its own name,
-- those that it captured, and outside.
theorem place_gives {s : Situation} {n : Names} {k : Finished} {x : String} {symbol : Symbol}
    (agrees : s.env.Agrees n k) (settled : n.Settled x) (place : n.place? x = some symbol.place)
    (named : symbol.name = x) (within : symbol.Within k) : s.Gives x symbol := by
  have inside := agrees.inside
  rw [Names.place?, ← agrees.globals] at place
  cases shape : n.scans with
  | nil =>
    rw [shape] at place inside
    obtain ⟨-, vars, itself, captured⟩ := inside
    exact outer_gives (by simp [Env.inner, vars, itself, captured]) place
  | cons scan rest =>
    rw [shape] at place inside
    obtain ⟨-, vars, itself, captured, distinct, around⟩ := inside
    simp only [Scan.place?] at place
    cases var : scan.vars.idxOf? x with
    | some i =>
      rw [var] at place
      rw [← vars] at var
      exact var_gives var (Option.some.inj place)
    | none =>
      have noVar : s.env.vars.lookup x = none := by
        rw [lookup_none, vars]
        exact List.idxOf?_eq_none_iff.mp var
      rw [var] at place
      by_cases own : scan.itself = some x
      · simp only [own, if_true] at place
        exact itself_gives noVar (itself.trans own) (Option.some.inj place)
      · have noItself : s.env.itself.toList.lookup x = none := by
          rw [← itself] at own
          rw [lookup_none]
          simpa [Option.map_eq_some_iff] using own
        simp only [own, if_false] at place
        cases free : scan.free.idxOf? x with
        | some j =>
          rw [free] at place
          obtain ⟨storage, index⟩ := Prod.mk.inj (Option.some.inj place)
          rw [Symbol.Within, ← storage, named] at within
          rw [← captured] at distinct
          refine captured_gives noVar noItself distinct ?_ storage
          rw [captured, List.getElem?_map]
          exact within
        | none =>
          have noCapture : s.env.captured.lookup x = none := by
            rw [lookup_none, captured]
            intro present
            have knows := settled scan rest shape (around x present)
            rcases knows with inVars | isOwn | isFree
            · exact List.idxOf?_eq_none_iff.mp var inVars
            · exact own isOwn
            · exact List.idxOf?_eq_none_iff.mp free isFree
          rw [free] at place
          exact outer_gives (by rw [inner_lookup, noVar, noItself, noCapture]; rfl) place

end StackScript
