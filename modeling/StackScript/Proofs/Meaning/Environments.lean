import StackScript.Proofs.Compiler.WellFormed
import StackScript.Proofs.Meaning.Activations

-- What names and values of names an evaluation changes, and what the slots of a function then hold.
namespace StackScript

namespace Activation

theorem slots_introduce (count : Nat) (vars : List (String × Datum)) (x : String) :
    slots count (vars ++ [(x, .null)]) = slots count vars := by
  rw [slots, slots]
  refine List.map_congr_left fun i _ => ?_
  by_cases old : i < vars.length
  · rw [List.getElem?_append_left old]
  · rw [List.getElem?_append_right (Nat.le_of_not_lt old), List.getElem?_eq_none (Nat.le_of_not_lt old)]
    cases i - vars.length <;> rfl

theorem slots_getElem? {count i : Nat} {vars : List (String × Datum)} {x : String} {d : Datum} (within : i < count)
    (here : vars[i]? = some (x, d)) : (slots count vars)[i]? = some d.value := by
  simp [slots, within, here]

theorem slots_length (count : Nat) (vars : List (String × Datum)) : (slots count vars).length = count := by
  simp [slots]

theorem slots_assign {count i : Nat} {vars : List (String × Datum)} {x : String} (distinct : (vars.map Prod.fst).Nodup)
    (here : (vars.map Prod.fst).idxOf? x = some i) (d : Datum) :
    slots count (vars.map fun (y, e) => (y, if x = y then d else e)) = (slots count vars).set i d.value := by
  obtain ⟨e, found, -⟩ := lookup_placed here
  refine List.ext_getElem? fun j => ?_
  rw [List.getElem?_set, slots_length]
  simp only [slots, List.getElem?_map]
  by_cases same : i = j
  · subst same
    by_cases within : i < count
    · simp [within, found]
    · simp [within]
  · simp only [same, if_false]
    by_cases within : j < count
    · simp only [List.getElem?_range within, Option.map_some]
      cases there : vars[j]? with
      | none => rfl
      | some v =>
        have other : x ≠ v.1 := by
          rintro rfl
          have second : (vars.map Prod.fst)[j]? = some v.1 := by rw [List.getElem?_map, there]; rfl
          rw [idxOf?_distinct distinct second] at here
          exact same (Option.some.inj here).symm
        simp [other]
    · have beyond : (List.range count)[j]? = none := by simpa using within
      rw [beyond]
      rfl

end Activation

theorem names_assign (vars : List (String × Datum)) (x : String) (d : Datum) :
    (vars.map fun (y, e) => (y, if x = y then d else e)).map Prod.fst = vars.map Prod.fst := by
  rw [List.map_map]
  rfl

namespace Situation

variable {s : Situation} {n : Names} {k : Finished} {known : Literal → Prop}

theorem introduce_agrees (agrees : s.env.Agrees n k) (x : String) : (s.introduce x).env.Agrees (n.declare x) k := by
  obtain ⟨globals, literals, inside⟩ := agrees
  cases shape : n.scans with
  | nil =>
    rw [shape] at inside
    obtain ⟨outer, vars, itself, captured⟩ := inside
    simp only [introduce, outer, Names.declare, shape, Bool.false_eq_true, if_false]
    exact ⟨by rw [globals], literals, rfl, vars, itself, captured⟩
  | cons scan rest =>
    rw [shape] at inside
    obtain ⟨nested, vars, others⟩ := inside
    simp only [introduce, nested, Names.declare, shape, if_true]
    exact ⟨globals, literals, rfl, by rw [List.map_append, vars]; rfl, others⟩

theorem introduce_sound (sound : s.Sound known) (x : String) : (s.introduce x).Sound known := by
  rw [introduce]
  split
  · refine ⟨sound.globals, fun v present => ?_, sound.itself, sound.captured⟩
    rcases List.mem_append.mp present with old | new
    · exact sound.vars v old
    · rw [List.mem_singleton.mp new]
      exact .simple rfl rfl
  · exact ⟨sound.globals, sound.vars, sound.itself, sound.captured⟩

theorem mention_agrees (agrees : s.env.Agrees n k) (x : String) : s.env.Agrees (n.after [.mention x]) k := by
  refine ⟨agrees.globals, agrees.literals, ?_⟩
  have inside := agrees.inside
  simp only [Names.after]
  cases shape : n.scans with
  | nil =>
    rw [shape] at inside
    exact inside
  | cons scan rest =>
    rw [shape] at inside
    obtain ⟨t, others, mentioned, vars, itself, -, within⟩ := Scan.mention_cons (x := x) scan rest
    obtain ⟨nested, names, own, captured, distinct, around⟩ := inside
    rw [mentioned]
    exact ⟨nested, names.trans vars.symm, own.trans itself.symm, captured, distinct,
      fun y present => (within y).mpr (around y present)⟩

-- What is not changed when a part of the program is passed over.
structure Same (s t : Situation) : Prop where
  world : t.world = s.world
  slots : ∀ count, Activation.slots count t.env.vars = Activation.slots count s.env.vars
  itself : t.env.itself = s.env.itself
  captured : t.env.captured = s.env.captured

theorem Same.trans {t u : Situation} (first : s.Same t) (second : t.Same u) : s.Same u :=
  ⟨second.world.trans first.world, fun count => (second.slots count).trans (first.slots count),
    second.itself.trans first.itself, second.captured.trans first.captured⟩

theorem introduce_same (s : Situation) (x : String) : s.Same (s.introduce x) := by
  rw [introduce]
  split
  · exact ⟨rfl, fun count => Activation.slots_introduce count _ x, rfl, rfl⟩
  · exact ⟨rfl, fun _ => rfl, rfl, rfl⟩

theorem skip_same (s : Situation) (events : List Event) : s.Same (s.skip events) := by
  induction events generalizing s with
  | nil => exact ⟨rfl, fun _ => rfl, rfl, rfl⟩
  | cons event rest ih =>
    cases event with
    | mention x => exact ih s
    | declare x => exact (introduce_same s x).trans (ih _)
    | literal =>
      exact Same.trans (t := { s with env := { s.env with literals := s.env.literals + 1 } })
        ⟨rfl, fun _ => rfl, rfl, rfl⟩ (ih _)

theorem skip_agrees (agrees : s.env.Agrees n k) (events : List Event) :
    (s.skip events).env.Agrees (n.after events) k := by
  induction events generalizing s n with
  | nil => exact agrees
  | cons event rest ih =>
    cases event with
    | mention x => exact ih (mention_agrees agrees x)
    | declare x => exact ih (introduce_agrees agrees x)
    | literal => exact ih ⟨agrees.globals, congrArg (· + 1) agrees.literals, agrees.inside⟩

theorem skip_sound (sound : s.Sound known) (events : List Event) : (s.skip events).Sound known := by
  induction events generalizing s with
  | nil => exact sound
  | cons event rest ih =>
    cases event with
    | mention x => exact ih sound
    | declare x => exact ih (introduce_sound sound x)
    | literal => exact ih ⟨sound.globals, sound.vars, sound.itself, sound.captured⟩

theorem assign_frame (agrees : s.env.Agrees n k) {x : String} {i : Nat} (place : n.place? x = some (.frame, i))
    (d : Datum) :
    (s.env.vars.map Prod.fst).idxOf? x = some i ∧
      s.assign x d = { s with env := { s.env with vars := s.env.vars.map fun (y, e) => (y, if x = y then d else e) } } := by
  have inside := agrees.inside
  rw [Names.place?] at place
  cases shape : n.scans with
  | nil =>
    rw [shape] at place
    rcases SymbolTable.outer?_storage place with wrong | wrong <;> cases wrong
  | cons scan rest =>
    rw [shape] at place inside
    obtain ⟨-, vars, -⟩ := inside
    have here : scan.vars.idxOf? x = some i := by
      simp only [Scan.place?] at place
      cases var : scan.vars.idxOf? x with
      | some j =>
        rw [var] at place
        cases place
        rfl
      | none =>
        rw [var] at place
        by_cases own : scan.itself = some x
        · simp [own] at place
        · simp only [own, if_false] at place
          cases free : scan.free.idxOf? x with
          | some j => simp [free] at place
          | none =>
            rw [free] at place
            rcases SymbolTable.outer?_storage place with wrong | wrong <;> cases wrong
    rw [← vars] at here
    obtain ⟨e, -, found⟩ := lookup_placed here
    exact ⟨here, by rw [assign, found]; rfl⟩

theorem assign_global (agrees : s.env.Agrees n k) {x : String} {i : Nat} (place : n.place? x = some (.global, i))
    (d : Datum) : s.assign x d =
      { s with world := { s.world with globals := fun m => if m = i then d else s.world.globals m } } := by
  have inside := agrees.inside
  have global (outer : Names.outer? n.globals x = some (.global, i)) : s.env.globals.idxOf? x = some i := by
    rw [Names.outer?, ← agrees.globals] at outer
    cases found : s.env.globals.idxOf? x with
    | some j =>
      rw [found] at outer
      cases outer
      rfl
    | none => simp [found] at outer
  rw [Names.place?] at place
  cases shape : n.scans with
  | nil =>
    rw [shape] at place inside
    obtain ⟨-, vars, -⟩ := inside
    simp [assign, vars, global place]
  | cons scan rest =>
    rw [shape] at place inside
    obtain ⟨-, vars, -⟩ := inside
    cases inner : scan.place? x with
    | some found =>
      simp only [inner, Option.some_or, Option.some.injEq] at place
      exact absurd (congrArg Prod.fst place) (SymbolTable.place?_storage inner).1
    | none =>
      simp only [inner, Option.none_or] at place
      have noVar : s.env.vars.lookup x = none := by
        rw [lookup_none, vars]
        exact fun present => Scan.place?_eq_none.mp inner (.inl present)
      simp [assign, noVar, global place]

theorem assign_agrees (agrees : s.env.Agrees n k) (x : String) (d : Datum) : (s.assign x d).env.Agrees n k := by
  rw [assign]
  split
  · refine ⟨agrees.globals, agrees.literals, ?_⟩
    have inside := agrees.inside
    cases shape : n.scans with
    | nil =>
      rw [shape] at inside
      obtain ⟨outer, vars, others⟩ := inside
      exact ⟨outer, by simp [vars], others⟩
    | cons scan rest =>
      rw [shape] at inside
      obtain ⟨nested, vars, others⟩ := inside
      exact ⟨nested, (names_assign _ x d).trans vars, others⟩
  · split <;> exact agrees

theorem assign_sound (sound : s.Sound known) (x : String) {d : Datum} (new : d.Sound known) :
    (s.assign x d).Sound known := by
  rw [assign]
  split
  · refine ⟨sound.globals, fun v present => ?_, sound.itself, sound.captured⟩
    obtain ⟨w, old, rfl⟩ := List.mem_map.mp present
    simp only
    split
    · exact new
    · exact sound.vars w old
  · split
    · refine ⟨fun m => ?_, sound.vars, sound.itself, sound.captured⟩
      simp only
      split
      · exact new
      · exact sound.globals m
    · exact sound

theorem assign_same (s : Situation) (x : String) (d : Datum) :
    (s.assign x d).env.itself = s.env.itself ∧ (s.assign x d).env.captured = s.env.captured ∧
      (s.assign x d).world.output = s.world.output ∧ (s.assign x d).world.last = s.world.last := by
  rw [assign]
  split
  · exact ⟨rfl, rfl, rfl, rfl⟩
  · split <;> exact ⟨rfl, rfl, rfl, rfl⟩

end Situation
end StackScript
