import StackScript.Proofs.Meaning.Calls

-- Making a function: what its body mentions of the functions around it is read first, and is what it copies.
namespace StackScript

namespace Event

theorem found_capturing {known : String → Bool} {found : List String} {x : String} (present : x ∈ found)
    (events : List Event) : x ∈ capturing known found events := by
  induction events generalizing found with
  | nil => exact present
  | cons event rest ih =>
    cases event with
    | mention y =>
      rw [capturing]
      apply ih
      split
      · exact List.mem_append_left _ present
      · exact present
    | declare y => exact ih present
    | literal => exact ih present

theorem capturing_known {known : String → Bool} {found : List String} {x : String} {events : List Event}
    (captured : x ∈ capturing known found events) : x ∈ found ∨ known x = true := by
  induction events generalizing found with
  | nil => exact .inl captured
  | cons event rest ih =>
    cases event with
    | mention y =>
      rw [capturing] at captured
      rcases ih captured with present | new
      · split at present
        · rename_i fresh
          rcases List.mem_append.mp present with old | same
          · exact .inl old
          · rw [List.mem_singleton.mp same]
            exact .inr (Bool.and_eq_true_iff.mp fresh).1
        · exact .inl present
      · exact .inr new
    | declare y => exact ih captured
    | literal => exact ih captured

-- It is enough to know the names that are captured.
theorem capturing_congr {known other : String → Bool} (less : ∀ x, other x = true → known x = true) {found : List String}
    {events : List Event} (more : ∀ x ∈ capturing known found events, other x = true) :
    capturing other found events = capturing known found events := by
  induction events generalizing found with
  | nil => rfl
  | cons event rest ih =>
    cases event with
    | mention y =>
      rw [capturing] at more
      rw [capturing, capturing]
      by_cases present : y ∈ found
      · simp only [List.contains_eq_mem, present, decide_true, Bool.not_true, Bool.and_false, Bool.false_eq_true,
          if_false] at more ⊢
        exact ih more
      · cases here : known y with
        | true =>
          simp only [here, List.contains_eq_mem, present, decide_false, Bool.not_false, Bool.and_self, if_true] at more ⊢
          have there := more y (found_capturing (by simp) rest)
          simp only [there, Bool.and_self, if_true]
          exact ih more
        | false =>
          have there : other y = false := by
            cases known' : other y with
            | false => rfl
            | true => exact (less y known').symm.trans here
          simp only [here, there, Bool.false_and, Bool.false_eq_true, if_false] at more ⊢
          exact ih more
    | declare y => exact ih more
    | literal => exact ih more

end Event

namespace Situation

-- Passing over the body of a function only counts what is in it.
theorem skip_outward (s : Situation) (own : List String) (events : List Event) :
    ∃ literals, s.skip (Event.outward own events) = { s with env := { s.env with literals } } ∧
      s.skip ((Event.outward own events).filter (· = .literal)) = s.skip (Event.outward own events) := by
  induction events generalizing s own with
  | nil => exact ⟨s.env.literals, rfl, rfl⟩
  | cons event rest ih =>
    cases event with
    | mention x =>
      rw [Event.outward]
      split
      · exact ih s own
      · exact ih s own
    | declare x => exact ih s (x :: own)
    | literal =>
      obtain ⟨literals, skipped, filtered⟩ := ih { s with env := { s.env with literals := s.env.literals + 1 } } own
      exact ⟨literals, skipped, filtered⟩

theorem knows_iff (s : Situation) (x : String) : s.env.knows x = true ↔ x ∈ s.env.inner.map Prod.fst := by
  rw [Env.knows]
  cases found : s.env.inner.lookup x with
  | none =>
    have absent := lookup_none.mp found
    simpa using absent
  | some d =>
    have present : x ∈ s.env.inner.map Prod.fst := by
      by_contra absent
      rw [lookup_none.mpr absent] at found
      cases found
    exact iff_of_true rfl present

theorem knows_within {s : Situation} {n : Names} {k : Finished} (agrees : s.env.Agrees n k) {x : String}
    (known : s.env.knows x = true) : Scan.Within x n.scans := by
  have inside := agrees.inside
  rw [knows_iff, Env.inner, List.map_append, List.map_append, List.mem_append, List.mem_append] at known
  cases shape : n.scans with
  | nil =>
    rw [shape] at inside
    obtain ⟨-, vars, itself, captured⟩ := inside
    simp [vars, itself, captured] at known
  | cons scan rest =>
    rw [shape] at inside
    obtain ⟨-, vars, itself, captured, -, around⟩ := inside
    rw [Scan.within_cons]
    rcases known with (var | own) | copied
    · rw [vars] at var
      exact .inl (.inl var)
    · obtain ⟨v, present, rfl⟩ := List.mem_map.mp own
      rw [Option.mem_toList.mp present] at itself
      exact .inl (.inr (.inl itself.symm))
    · rw [captured] at copied
      exact .inr (around x copied)

theorem Gives.knows {s : Situation} {x : String} {symbol : Symbol} (gives : s.Gives x symbol)
    (inner : symbol.storage ≠ .global ∧ symbol.storage ≠ .native) : s.env.knows x = true := by
  rw [knows_iff, Env.inner, List.map_append, List.map_append, List.mem_append, List.mem_append]
  rw [Gives] at gives
  cases storage : symbol.storage <;> simp only [storage] at gives inner
  case global => exact absurd rfl inner.1
  case native => exact absurd rfl inner.2
  case frame => exact .inl (.inl (List.mem_map.mpr ⟨_, List.mem_of_getElem? gives, rfl⟩))
  case captured => exact .inr (List.mem_map.mpr ⟨_, List.mem_of_getElem? gives, rfl⟩)
  case itself => exact .inl (.inr (by simp [gives]))

theorem lookup_mem {α : Type} {pairs : List (String × α)} {x : String} {a : α} (found : pairs.lookup x = some a) :
    ∃ v ∈ pairs, v.2 = a := by
  rw [lookup_eq] at found
  obtain ⟨i, -, here⟩ := Option.bind_eq_some_iff.mp found
  obtain ⟨v, there, equal⟩ := Option.map_eq_some_iff.mp here
  exact ⟨v, List.mem_of_getElem? there, equal⟩

theorem lookup_sound {s : Situation} {known : Literal → Prop} (sound : s.Sound known) (x : String) :
    (s.lookup x).Sound known := by
  rw [lookup]
  cases inner : s.env.inner.lookup x with
  | some d =>
    obtain ⟨v, present, rfl⟩ := lookup_mem inner
    rw [Env.inner, List.mem_append, List.mem_append] at present
    rcases present with (var | own) | copied
    · exact sound.vars v var
    · exact sound.itself v (Option.mem_toList.mp own)
    · exact sound.captured v copied
  | none =>
    cases global : s.env.globals.idxOf? x with
    | some i => exact sound.globals i
    | none =>
      cases Builtin.all.find? fun b => b.name = x <;> exact .simple rfl rfl

end Situation

theorem Layout.reads_within {symbols : List Symbol} {k : Finished} {p q : Point} (lies : reads symbols k p q) :
    ∀ symbol ∈ symbols, symbol.Within k := by
  induction symbols generalizing p with
  | nil =>
    intro symbol present
    cases present
  | cons first rest ih =>
    obtain ⟨m, read, others⟩ := lies
    intro symbol present
    rcases List.mem_cons.mp present with rfl | later
    · exact read.1
    · exact ih others symbol later

theorem captured_place {t : SymbolTable} {n : Names} {scope : Scope} {outer : Symbol} (valid : t.Valid)
    (reflects : t.Reflects n) (inside : scope.Inside t.innermost) (present : outer ∈ scope.captures) :
    n.place? outer.name = some outer.place ∧ n.Settled outer.name := by
  obtain ⟨here, global, native⟩ := inside.taken outer present
  obtain ⟨s, rest⟩ := t
  obtain ⟨scans, globals, literals⟩ := n
  cases rest with
  | nil =>
    have outermost : s.Outermost := valid
    rcases outermost.stored _ _ here with wrong | wrong
    · exact absurd wrong.1 global
    · exact absurd wrong.1 native
  | cons around rest =>
    cases scans with
    | nil => exact reflects.elim
    | cons scan scans =>
      have place := reflects.1.places outer.name
      rw [here] at place
      have found : scan.place? outer.name = some outer.place := place.symm
      refine ⟨by rw [Names.place?]; simp only [found, Option.some_or], ?_⟩
      intro first others shape within
      cases shape
      by_contra unknown
      rw [Scan.place?_eq_none.mpr unknown] at found
      cases found

namespace Activation

variable {a : Activation} {p q : Point} {n : Names} {s : Situation} {operands : List Value} {m : Machine}

theorem Holds.skip (holds : a.Holds p n s operands m) {events : List Event} (reflects : q.Reflects (n.after events))
    (position : q.position = p.position) : a.Holds q (n.after events) (s.skip events) operands m := by
  have same := s.skip_same events
  refine ⟨holds.code, holds.next.trans position.symm, holds.base, ?_, ?_, holds.callers, holds.constants, ?_, holds.small, ?_,
    reflects, Situation.skip_agrees holds.agrees events, Situation.skip_sound holds.sound events⟩
  · rw [same.captured]
    exact holds.captured
  · rw [same.itself]
    exact holds.itself
  · rw [holds.stack, Activation.stack, Activation.stack, same.slots]
  · rw [same.world]
    exact holds.shows

theorem Holds.leads_reads {symbols : List Symbol} (holds : a.Holds p n s operands m)
    (lies : Layout.reads symbols a.finished p q) (gives : ∀ symbol ∈ symbols, s.Gives symbol.name symbol) :
    m.Leads (a.Holds q n s (operands ++ symbols.map fun symbol => (s.lookup symbol.name).value)) Overflow := by
  induction symbols generalizing p operands m with
  | nil =>
    cases lies
    rw [List.map_nil, List.append_nil]
    exact .here holds
  | cons first rest ih =>
    obtain ⟨e, ⟨within, item, rfl⟩, others⟩ := lies
    have read := holds.leads_read item rfl (holds.reflects.moved _) within (gives first List.mem_cons_self)
    refine read.bind fun o held => ?_
    have more := ih held others fun symbol present => gives symbol (List.mem_cons_of_mem _ present)
    rw [List.append_assoc] at more
    exact more

def Computes (a : Activation) (layout : Layout) (events : List Event) (step : Doing Datum) : Prop :=
  ∀ p q n s operands m, layout a.finished p q → a.Holds p n s operands m →
    Follows m (step s) (a.Arrives q (n.after events) operands) a.Returning

theorem make_run {label : Nat → Routine} {own : Option String} {parameters : List String} {body : List Stmt}
    {events : List Event} {captured : List String} {routine : Routine}
    (outward : Event.outward (own.toList ++ parameters) (bodyEvents body) = events)
    (same : Event.capturing s.env.knows [] events = captured)
    (labelled : label (s.skip events).env.literals = routine) :
    let f : Literal := ⟨routine, own, parameters, body, captured, s.env.globals, s.env.literals⟩
    Doing.make label own parameters body s =
      .ok (f.made (captured.map s.lookup)) ((s.skip events).skip [.literal]) := by
  obtain ⟨-, -, filtered⟩ := s.skip_outward (own.toList ++ parameters) (bodyEvents body)
  rw [outward] at filtered
  simp only [Doing.make, outward, same, filtered, labelled]

theorem made_sound {f : Literal} {known : Literal → Prop} (compiled : known f) (sound : s.Sound known) :
    (f.made (f.captured.map s.lookup)).Sound known := by
  rw [Literal.made]
  by_cases copies : f.captured.map s.lookup = []
  · rw [if_pos copies]
    refine .of (fun g captured called => ?_) (fun part present => by cases present)
    cases called
    exact ⟨compiled, by rw [List.map_eq_nil_iff.mp copies]; rfl⟩
  · rw [if_neg copies]
    refine .of (fun g captured called => ?_) (fun part present => ?_)
    · cases called
      exact ⟨compiled, List.length_map _⟩
    · obtain ⟨x, -, rfl⟩ := List.mem_map.mp present
      exact Situation.lookup_sound sound x

-- Functions show the routines that they were compiled to.
def Labelled (a : Activation) (label : Nat → Routine) : Prop :=
  ∀ (i : Nat) (r : Routine), a.finished.constants[i]? = some (.function r) → label i = r

theorem make_computes {label : Nat → Routine} (labels : a.Labelled label) (own : Option (String × Mutability))
    (parameters : List String) (body : List Stmt) :
    a.Computes (Layout.function own parameters (Layout.finish body))
      (Event.outward ((own.map Prod.fst).toList ++ parameters) (bodyEvents body) ++ [.literal])
      (Doing.make label (own.map Prod.fst) parameters body) := by
  intro p q n s operands m lies holds
  obtain ⟨code, first, last, scope, table, e, declares, inside, -, left, -, few, -, -, made, read, item, behind⟩ := lies
  have tells := Layout.finish_tells (Layout.body_tells body)
  have around := Layout.function_names (fun x => decide (Scan.Within x n.scans)) tells holds.reflects (fun x => by simp)
    declares inside left
  obtain ⟨literals, skipped, -⟩ := s.skip_outward ((own.map Prod.fst).toList ++ parameters) (bodyEvents body)
  obtain ⟨start, taken, captures, outer, slots⟩ := around
  generalize outward : Event.outward ((own.map Prod.fst).toList ++ parameters) (bodyEvents body) = events at *
  have reflects := outer p.position
  have lookup (x : String) : (s.skip events).lookup x = s.lookup x := by rw [skipped]; rfl
  have passed : a.Holds ⟨table, last.constants, p.position⟩ (n.after events) (s.skip events) operands m :=
    holds.skip reflects rfl
  have gives : ∀ symbol ∈ scope.captures.toList, (s.skip events).Gives symbol.name symbol := by
    intro symbol present
    obtain ⟨place, settled⟩ := captured_place reflects.valid reflects.symbols taken (Array.mem_toList_iff.mp present)
    exact place_gives passed.agrees settled place rfl (Layout.reads_within read symbol present)
  have same : Event.capturing s.env.knows [] events = scope.captures.toList.map Symbol.name := by
    rw [captures]
    refine Event.capturing_congr (fun x known => ?_) (fun x captured => ?_)
    · exact decide_eq_true (Situation.knows_within holds.agrees known)
    · rw [← captures] at captured
      obtain ⟨symbol, present, rfl⟩ := List.mem_map.mp captured
      have known := (gives symbol present).knows (taken.taken symbol (Array.mem_toList_iff.mp present)).2
      rw [skipped] at known
      exact known
  have labelled : label (s.skip events).env.literals = ⟨code, parameters.length, scope.slots⟩ := by
    rw [passed.agrees.literals, ← reflects.literals]
    exact labels _ _ made
  rw [make_run outward same labelled, Names.after_append]
  let f : Literal := ⟨⟨code, parameters.length, scope.slots⟩, own.map Prod.fst, parameters, body,
    scope.captures.toList.map Symbol.name, s.env.globals, s.env.literals⟩
  have compiled : a.Known f := by
    refine ⟨a.finished.inner code scope, ⟨first, p.constants, 0⟩, last, n.scans, rfl, rfl, rfl, inside, rfl, ?_, rfl,
      taken.distinct, fun x captured => ?_, slots, few⟩
    · rw [show f.globals = n.globals from holds.agrees.globals, show f.literals = n.literals from holds.agrees.literals]
      exact start
    · have mentioned : x ∈ Event.capturing s.env.knows [] events := by
        rw [same]
        exact captured
      have known := (Event.capturing_known mentioned).resolve_left List.not_mem_nil
      exact Situation.knows_within holds.agrees known
  have sound := made_sound compiled holds.sound
  refine Machine.Leads.bind (passed.leads_reads read gives) fun o held => ?_
  have values : (scope.captures.toList.map fun symbol => ((s.skip events).lookup symbol.name).value) =
      ((scope.captures.toList.map Symbol.name).map s.lookup).map Datum.value := by
    simp [lookup]
  rw [values] at held
  have ready := held.skip held.reflects.counted rfl
  have size : scope.captures.size = ((scope.captures.toList.map Symbol.name).map s.lookup).length := by simp
  rw [size] at item behind
  have reached : q.Reflects ((n.after events).after [.literal]) := by
    rw [behind]
    exact held.reflects.counted.moved _
  have makes := ready.leads_make (f := f) item (congrArg Point.position behind) made reached
  exact makes.mono (fun r arrived => ⟨arrived, sound⟩) fun _ _ spilled => spilled

end Activation
end StackScript
