import Mathlib.Data.List.Nodup
import StackScript.Proofs.Meaning.Names
import StackScript.Proofs.Scope.Resolve

-- Which names are known where, as lists of names. A table of names says the same with symbols.
namespace StackScript

-- The names of a function that is being compiled, as far as they are known.
structure Scan where
  vars : List String
  itself : Option String
  free : List String -- captured so far

namespace Scan

def Knows (s : Scan) (x : String) : Prop := x ∈ s.vars ∨ s.itself = some x ∨ x ∈ s.free

instance (s : Scan) (x : String) : Decidable (s.Knows x) := inferInstanceAs (Decidable (_ ∨ _ ∨ _))

def Within (x : String) (scans : List Scan) : Prop := ∃ s ∈ scans, s.Knows x

instance (x : String) (scans : List Scan) : Decidable (Within x scans) := inferInstanceAs (Decidable (∃ s ∈ scans, _))

-- A name that is not known here but further out is captured on the way.
def mention (x : String) : List Scan → List Scan
  | [] => []
  | s :: rest =>
    if s.Knows x then s :: rest
    else if Within x rest then { s with free := s.free ++ [x] } :: mention x rest
    else s :: rest

theorem within_cons {x : String} {s : Scan} {rest : List Scan} : Within x (s :: rest) ↔ s.Knows x ∨ Within x rest := by
  simp [Within]

theorem not_within_nil (x : String) : ¬ Within x [] := by simp [Within]

theorem knows_more {s : Scan} {x y : String} : { s with free := s.free ++ [y] }.Knows x ↔ s.Knows x ∨ x = y := by
  simp only [Knows, List.mem_append, List.mem_singleton]
  tauto

theorem mention_outside {x : String} {scans : List Scan} (outside : ¬ Within x scans) : mention x scans = scans := by
  cases scans with
  | nil => rfl
  | cons s rest =>
    rw [within_cons, not_or] at outside
    rw [mention, if_neg outside.1, if_neg outside.2]

theorem within_mention {x y : String} {scans : List Scan} : Within x (mention y scans) ↔ Within x scans := by
  induction scans with
  | nil => rfl
  | cons s rest ih =>
    rw [mention]
    split
    · rfl
    · split
      · rename_i further
        rw [within_cons, within_cons, knows_more, ih]
        constructor
        · intro known
          rcases known with (here | rfl) | there
          · exact .inl here
          · exact .inr further
          · exact .inr there
        · intro known
          exact known.imp_left .inl
      · rfl

theorem knows_mentioned {x : String} {s : Scan} {rest : List Scan} (within : Within x (s :: rest)) :
    ∃ t others, mention x (s :: rest) = t :: others ∧ t.Knows x := by
  rw [mention]
  split
  · exact ⟨_, _, rfl, by assumption⟩
  · rename_i here
    rw [if_pos ((within_cons.mp within).resolve_left here)]
    exact ⟨_, _, rfl, knows_more.mpr (.inr rfl)⟩

theorem mention_cons {x : String} (s : Scan) (rest : List Scan) :
    ∃ t others, mention x (s :: rest) = t :: others ∧ t.vars = s.vars ∧ t.itself = s.itself ∧
      (∀ y, s.Knows y → t.Knows y) ∧ ∀ y, Within y others ↔ Within y rest := by
  rw [mention]
  split
  · exact ⟨s, rest, rfl, rfl, rfl, fun _ known => known, fun _ => .rfl⟩
  · split
    · exact ⟨_, _, rfl, rfl, rfl, fun y known => knows_more.mpr (.inl known), fun y => within_mention⟩
    · exact ⟨s, rest, rfl, rfl, rfl, fun _ known => known, fun _ => .rfl⟩

theorem mention_known {x : String} {scans : List Scan} (known : ∃ s ∈ scans.head?, s.Knows x) :
    mention x scans = scans := by
  obtain ⟨s, head, knows⟩ := known
  cases scans with
  | nil => cases head
  | cons t rest =>
    cases head
    rw [mention, if_pos knows]

-- What the innermost function knows it still knows behind the mention of a name, and that name with it.
theorem mention_knows {x : String} {names : List String} {scans : List Scan}
    (known : ∀ y ∈ names, ∃ s ∈ scans.head?, s.Knows y) (within : Within x scans) :
    ∀ y ∈ names ++ [x], ∃ s ∈ (mention x scans).head?, s.Knows y := by
  intro y present
  cases scans with
  | nil => exact absurd within (not_within_nil x)
  | cons s rest =>
    obtain ⟨t, others, mentioned, -, -, more, -⟩ := mention_cons (x := x) s rest
    obtain ⟨t', others', mentioned', knows⟩ := knows_mentioned within
    rw [mentioned] at mentioned' ⊢
    cases mentioned'
    refine ⟨t, rfl, ?_⟩
    rcases List.mem_append.mp present with before | now
    · obtain ⟨_, ⟨⟩, known⟩ := known y before
      exact more y known
    · rw [List.mem_singleton.mp now]
      exact knows

end Scan

-- What is known about names between two parts of a program.
structure Names where
  scans : List Scan -- of the open functions, innermost first
  globals : List String
  literals : Nat

namespace Names

def declare (n : Names) (x : String) : Names :=
  match n.scans with
  | [] => { n with globals := n.globals ++ [x] }
  | s :: rest => { n with scans := { s with vars := s.vars ++ [x] } :: rest }

def after (n : Names) : List Event → Names
  | [] => n
  | .mention x :: rest => { n with scans := Scan.mention x n.scans }.after rest
  | .declare x :: rest => (n.declare x).after rest
  | .literal :: rest => { n with literals := n.literals + 1 }.after rest

def enter (n : Names) (own : Option String) (parameters : List String) : Names :=
  { n with scans := ⟨parameters, own, []⟩ :: n.scans }

theorem after_append (n : Names) (events others : List Event) : n.after (events ++ others) = (n.after events).after others := by
  induction events generalizing n with
  | nil => rfl
  | cons event rest ih => cases event <;> exact ih _

-- A body says to the functions around it what its outward events say, and captures what these mention.
theorem after_outward (n : Names) (scan : Scan) (own : List String) {known : String → Bool}
    (bound : ∀ x, x ∈ own ↔ x ∈ scan.vars ∨ scan.itself = some x)
    (free : ∀ x ∈ scan.free, ∃ s ∈ n.scans.head?, s.Knows x)
    (same : ∀ x, known x = true ↔ Scan.Within x n.scans) (events : List Event) :
    ∃ last, { n with scans := scan :: n.scans }.after events =
        { n.after (Event.outward own events) with scans := last :: (n.after (Event.outward own events)).scans } ∧
      scan.vars.length ≤ last.vars.length ∧
      last.free = Event.capturing known scan.free (Event.outward own events) := by
  induction events generalizing n scan own with
  | nil => exact ⟨scan, rfl, Nat.le_refl _, rfl⟩
  | cons event rest ih =>
    cases event with
    | literal => exact ih { n with literals := n.literals + 1 } scan own bound free same
    | declare x =>
      have bound' (y : String) : y ∈ x :: own ↔ y ∈ scan.vars ++ [x] ∨ scan.itself = some y := by
        rw [List.mem_cons, bound, List.mem_append, List.mem_singleton]
        tauto
      obtain ⟨last, after, more, captured⟩ :=
        ih n { scan with vars := scan.vars ++ [x] } (x :: own) bound' free same
      rw [List.length_append] at more
      exact ⟨last, after, Nat.le_of_succ_le more, captured⟩
    | mention x =>
      rw [after, Event.outward]
      by_cases here : x ∈ own
      · have knows : scan.Knows x := ((bound x).mp here).imp_right .inl
        rw [if_pos here]
        simp only [Scan.mention, if_pos knows]
        exact ih n scan own bound free same
      · rw [if_neg here, after, Event.capturing]
        by_cases already : x ∈ scan.free
        · -- It was captured before, so that all around know it.
          have knows : scan.Knows x := .inr (.inr already)
          have settled : Scan.mention x n.scans = n.scans := Scan.mention_known (free x already)
          simp only [Scan.mention, if_pos knows, settled, List.contains_eq_mem, already, decide_true, Bool.not_true,
            Bool.and_false, Bool.false_eq_true, if_false]
          exact ih n scan own bound free same
        · have unknown : ¬ scan.Knows x := by
            rintro (var | itself | captured)
            · exact here ((bound x).mpr (.inl var))
            · exact here ((bound x).mpr (.inr itself))
            · exact already captured
          by_cases within : Scan.Within x n.scans
          · simp only [Scan.mention, if_neg unknown, if_pos within, (same x).mpr within, List.contains_eq_mem, already,
              decide_false, Bool.not_false, Bool.and_self, if_true]
            exact ih { n with scans := Scan.mention x n.scans } { scan with free := scan.free ++ [x] } own bound
              (Scan.mention_knows free within) fun y => (same y).trans Scan.within_mention.symm
          · have no : known x = false := by
              rw [← Bool.not_eq_true, same]
              exact within
            simp only [Scan.mention, if_neg unknown, if_neg within, no, Bool.false_and, Bool.false_eq_true, if_false,
              Scan.mention_outside within]
            exact ih n scan own bound free same

end Names

end StackScript
