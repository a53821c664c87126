import Mathlib.Data.List.Induction
import StackScript.Proofs.Meaning.Preservation
import StackScript.Proofs.Session.Lets

-- What a session hands from text to text stays coherent: constants are only appended, names keep their slots, and the
-- functions that it has kept find the constants they were compiled with.
namespace StackScript

-- Code that loads a constant as it is, or makes a closure of it.
def Code.Loads (code : Code) (n : Nat) : Prop :=
  ∃ offset, code.Has offset ⟨.constant, [n]⟩ ∨ ∃ m, code.Has offset ⟨.closure, [n, m]⟩

-- The functions reached from a value: the one that it is itself, and those reached from what is inside it.
inductive Value.Reaches (f : Routine) : Value → Prop where
  | itself {v : Value} {n : Nat} : v.callee? = some (f, n) → Reaches f v
  | inside {v part : Value} : part ∈ v.parts → Reaches f part → Reaches f v

theorem Value.Sound.reached {pool : Array Value} {v : Value} {f : Routine} (sound : v.Sound pool) (reaches : v.Reaches f) :
    .function f ∈ pool := by
  induction reaches with
  | itself called => exact (sound.callee called).pooled
  | inside part _ ih => exact ih (sound.inside part)

theorem Routine.WellFormed.loads {r : Routine} {constants : Array Value} {index globals n : Nat}
    (formed : r.WellFormed constants index globals) (loads : r.code.Loads n) : n < index := by
  obtain ⟨captured, code⟩ := formed.code
  obtain ⟨offset, constant | ⟨m, closure⟩⟩ := loads
  · exact (code.operands offset _ constant).1
  · exact (code.operands offset _ closure).1

-- Functions load only constants that were there before they were.
def Backward (constants : Array Value) : Prop := ∀ (k : Nat) (f : Routine), constants[k]? = some (.function f) →
  ∀ n, f.code.Loads n → n < k

theorem prefix_kept {constants more : Array Value} (appended : constants.toList <+: more.toList) {k : Nat}
    (below : k < constants.size) : more[k]? = constants[k]? := by
  obtain ⟨rest, equal⟩ := appended
  rw [← Array.getElem?_toList, ← equal, List.getElem?_append_left below, Array.getElem?_toList]

namespace Session

-- The names of a session in the order of their slots, and functions that refer back.
structure Coherent (s : Session) : Prop extends s.Sound where
  names : ∃ globals, s.symbols.Reflects ⟨[], globals, s.constants.size⟩
  backward : Backward s.constants

theorem Coherent.outermost {s : Session} (coherent : s.Coherent) :
    s.symbols.innermost.Outermost ∧ ∃ globals, s.symbols.innermost.ReflectsOuter globals := by
  obtain ⟨⟨valid, main, -⟩, ⟨globals, reflects⟩, -⟩ := coherent
  rw [SymbolTable.Valid, main] at valid
  rw [SymbolTable.Reflects, main] at reflects
  exact ⟨valid, globals, reflects⟩

theorem new_coherent : new.Coherent :=
  ⟨new_sound, ⟨[], Compiler.nativeNames_reflects⟩, fun k f present => by simp [new] at present⟩

theorem eval_coherent {s : Session} (coherent : s.Coherent) (budget : Nat) (source : String) :
    (s.eval budget source).2.Coherent ∧ s.constants.toList <+: (s.eval budget source).2.constants.toList ∧
      s.symbols.Grows (s.eval budget source).2.symbols := by
  have sound := (eval_sound coherent.toSound budget source).2
  rcases eval_cases s budget source with ⟨e, -, equal⟩ | ⟨p, c, run, ending, m, -, equal⟩
  · rw [equal]
    exact ⟨coherent, List.prefix_rfl, .refl _⟩
  · rw [equal] at sound ⊢
    obtain ⟨globals, reflects⟩ := coherent.names
    obtain ⟨grown, -, main, lies⟩ := Compiler.compile_lies (Compiler.resume_ready coherent.symbols s.constants) coherent.main run
    have segment := (Layout.statements_adds p.statements _ _ _ 0 lies).segment (fun _ => rfl) coherent.symbols
    have told := Layout.statements_tells p.statements _ _ _ _ lies ⟨coherent.symbols, reflects, rfl⟩
    refine ⟨⟨sound, ?_, ?_⟩, grown.constants, grown.symbols⟩
    · have scans := told.outside (by rw [SymbolTable.isGlobal, Compiler.point, main]; rfl)
      have literals := told.literals
      have symbols := told.symbols
      generalize Names.after _ _ = later at scans literals symbols
      obtain ⟨_, globals, _⟩ := later
      cases scans
      cases literals
      exact ⟨globals, symbols⟩
    · intro k f present n loads
      by_cases old : k < s.constants.size
      · rw [prefix_kept grown.constants old] at present
        exact coherent.backward k f present n loads
      · have below := (Array.getElem?_eq_some_iff.mp present).1
        exact (segment.functions k f (Nat.le_of_not_lt old) below present).loads loads

theorem after_coherent (inputs : List (Nat × String)) : (new.after inputs).Coherent :=
  after_keeps Coherent (fun _ budget source coherent => (eval_coherent coherent budget source).1) inputs new_coherent

theorem after_appends (inputs : List (Nat × String)) {s : Session} (coherent : s.Coherent) :
    s.constants.toList <+: (s.after inputs).constants.toList := by
  induction inputs generalizing s with
  | nil => exact List.prefix_rfl
  | cons input rest ih =>
    obtain ⟨later, here, -⟩ := eval_coherent coherent input.1 input.2
    exact here.trans (ih later)

-- The session right after the text that made a function its constant `k`.
def Makes (inputs : List (Nat × String)) (f : Routine) (k : Nat) (s : Session) : Prop :=
  ∃ before budget source rest, inputs = before ++ (budget, source) :: rest ∧ s = ((new.after before).eval budget source).2 ∧
    (new.after before).constants.size ≤ k ∧ s.constants[k]? = some (.function f)

theorem after_makes {inputs : List (Nat × String)} {f : Routine} {k : Nat}
    (present : (new.after inputs).constants[k]? = some (.function f)) : ∃ s, Makes inputs f k s := by
  induction inputs using List.reverseRecOn with
  | nil => simp [after, new] at present
  | append_singleton inputs input ih =>
    obtain ⟨budget, source⟩ := input
    rw [after_append] at present
    by_cases old : k < (new.after inputs).constants.size
    · have appended := (eval_coherent (after_coherent inputs) budget source).2.1
      rw [after, after, prefix_kept appended old] at present
      obtain ⟨s, before, spent, text, rest, rfl, made⟩ := ih present
      exact ⟨s, before, spent, text, rest ++ [(budget, source)], by simp, made⟩
    · exact ⟨_, inputs, budget, source, [], rfl, rfl, Nat.le_of_not_lt old, present⟩

-- A function finds the constants that it was compiled with as long as the session goes on.
theorem Makes.loads {inputs : List (Nat × String)} {f : Routine} {k n : Nat} {s : Session} (made : Makes inputs f k s)
    (loads : f.code.Loads n) : n < (new.after inputs).constants.size ∧
      (new.after inputs).constants[n]? = s.constants[n]? := by
  obtain ⟨before, budget, source, rest, rfl, rfl, -, present⟩ := made
  have coherent := (eval_coherent (after_coherent before) budget source).1
  have appended := after_appends rest coherent
  have below := Nat.lt_trans (coherent.backward k f present n loads) (Array.getElem?_eq_some_iff.mp present).1
  rw [after_append, after]
  exact ⟨Nat.lt_of_lt_of_le below appended.length_le, prefix_kept appended below⟩

-- Names keep their slots, but for native ones that are declared.
theorem eval_names {s : Session} (coherent : s.Coherent) (budget : Nat) (source : String) {x : String} {symbol : Symbol}
    (found : s.symbols.innermost.symbols[x]? = some symbol) :
    ∃ later, (s.eval budget source).2.symbols.innermost.symbols[x]? = some later ∧
      (later.place = symbol.place ∨ symbol.storage = .native ∧ later.storage = .global) := by
  obtain ⟨after, -, grows⟩ := eval_coherent coherent budget source
  obtain ⟨outermost, globals, before⟩ := coherent.outermost
  rcases outermost.outside found with global | native
  · exact ⟨symbol, grows.innermost.declared x symbol found (.inl global), .inl rfl⟩
  · obtain ⟨-, more, reflects⟩ := after.outermost
    have known := before.places x
    rw [found] at known
    have places := reflects.places x
    rcases SymbolTable.outer?_native known.symm native more with kept | ⟨n, shadowed⟩
    · obtain ⟨later, here, place⟩ := Option.map_eq_some_iff.mp (places.trans kept)
      exact ⟨later, here, .inl place⟩
    · obtain ⟨later, here, place⟩ := Option.map_eq_some_iff.mp (places.trans shadowed)
      exact ⟨later, here, .inr ⟨native, congrArg Prod.fst place⟩⟩

theorem Coherent.unique {s : Session} (coherent : s.Coherent) {x y : String} {a b : Symbol}
    (one : s.symbols.innermost.symbols[x]? = some a) (two : s.symbols.innermost.symbols[y]? = some b)
    (first : a.storage = .global) (second : b.storage = .global) (same : a.index = b.index) : x = y := by
  have outermost := coherent.outermost.1
  have equal := outermost.apart x y a b one two (first.trans second.symm) (.inl first) same
  rw [← outermost.named x a one, ← outermost.named y b two, equal]

theorem eval_refused {s : Session} (sound : s.Sound) {budget : Nat} {source : String} {e : Failure}
    (refused : (s.eval budget source).1.result = .error e) (unfinished : e ≠ .unfinished) (ran : ∀ f, e ≠ .run f) :
    (s.eval budget source).2 = s := by
  rcases eval_cases s budget source with ⟨_, -, equal⟩ | ⟨-, c, -, ending, m, -, equal⟩
  · rw [equal]
  · have fine := (eval_sound sound budget source).1
    rw [equal] at refused fine
    match ending with
    | .halted => cases refused
    | .failed f =>
      cases refused
      exact absurd rfl (ran f)
    | .stopped .additionOverflow => exact absurd (.inr rfl) fine
    | .unfinished =>
      cases refused
      exact absurd rfl unfinished

structure Continues (s t : Session) : Prop where
  constants : s.constants.toList <+: t.constants.toList
  -- every name that was known keeps its slot, but for a native one that is shadowed
  names : ∀ x symbol u, s.symbols.resolve x = .ok (symbol, u) → ∃ later v, t.symbols.resolve x = .ok (later, v) ∧
    ((later.storage, later.index) = (symbol.storage, symbol.index) ∨ symbol.storage = .native ∧ later.storage = .global)
  -- no slot belongs to two names
  distinct : ∀ x y a b u v, t.symbols.resolve x = .ok (a, u) → t.symbols.resolve y = .ok (b, v) → a.storage = .global →
    b.storage = .global → a.index = b.index → x = y

theorem eval_continues {s : Session} (coherent : s.Coherent) (budget : Nat) (source : String) :
    s.Continues (s.eval budget source).2 := by
  obtain ⟨later, appended, -⟩ := eval_coherent coherent budget source
  refine ⟨appended, ?_, ?_⟩
  · intro x symbol u resolved
    obtain ⟨known, -⟩ := (SymbolTable.resolve_outside coherent.main).mp resolved
    obtain ⟨symbol', found, place⟩ := eval_names coherent budget source known
    exact ⟨symbol', _, (SymbolTable.resolve_outside later.main).mpr ⟨found, rfl⟩, place⟩
  · intro x y a b u v one two
    exact later.unique ((SymbolTable.resolve_outside later.main).mp one).1 ((SymbolTable.resolve_outside later.main).mp two).1

-- Whatever the texts of a session did before, a text that is refused changes nothing, and any other keeps what there was,
-- whether its run fails or not. Every function reached from the globals was made by some text, and the constants that it
-- loads are those that it was compiled with.
theorem state_coherent (inputs : List (Nat × String)) (budget : Nat) (source : String) :
    (∀ e, ((new.after inputs).eval budget source).1.result = .error e → e ≠ .unfinished → (∀ f, e ≠ .run f) →
      ((new.after inputs).eval budget source).2 = new.after inputs) ∧
    (new.after inputs).Continues ((new.after inputs).eval budget source).2 ∧
    ∀ v ∈ ((new.after inputs).eval budget source).2.globals, ∀ f, v.Reaches f →
      (∃ k made, Makes (inputs ++ [(budget, source)]) f k made) ∧
      ∀ k made, Makes (inputs ++ [(budget, source)]) f k made → ∀ n, f.code.Loads n →
        n < ((new.after inputs).eval budget source).2.constants.size ∧
        ((new.after inputs).eval budget source).2.constants[n]? = made.constants[n]? := by
  have coherent := after_coherent inputs
  have whole : new.after (inputs ++ [(budget, source)]) = ((new.after inputs).eval budget source).2 :=
    after_append inputs _ new
  refine ⟨fun e refused unfinished ran => eval_refused coherent.toSound refused unfinished ran, eval_continues coherent budget source, ?_⟩
  intro v present f reaches
  have later := (eval_coherent coherent budget source).1
  have pooled := (later.globals v present).reached reaches
  rw [← whole] at pooled ⊢
  obtain ⟨k, below, equal⟩ := Array.getElem_of_mem pooled
  refine ⟨⟨k, after_makes (by rw [Array.getElem?_eq_getElem below, equal])⟩, ?_⟩
  intro k made makes n loads
  exact makes.loads loads

-- A text that makes a function. Later ones declare its name again, or fail as they run.
def keeping : List (Nat × String) := [(20, "let f = fn() \x7b 5 \x7d;")]

theorem state_coherent_keeping :
    ((new.after keeping).eval 20 "let f = 6;").2 = new.after keeping ∧
    (new.after keeping).Continues ((new.after keeping).eval 20 "7 / 0").2 ∧
    ∃ v ∈ ((new.after keeping).eval 20 "7 / 0").2.globals, ∃ f k made, v.Reaches f ∧ f.code.Loads 0 ∧
      Makes (keeping ++ [(20, "7 / 0")]) f k made ∧
      ((new.after keeping).eval 20 "7 / 0").2.constants[0]? = made.constants[0]? := by
  have refused : (match ((new.after keeping).eval 20 "let f = 6;").1.result with
      | .error (.compile _) => true
      | _ => false) = true := by decide +kernel
  have loads : (((new.after keeping).eval 20 "7 / 0").2.globals[0]?.any fun v => v.callee?.any fun f =>
      f.1.code.itemAt 0 = .instruction ⟨.constant, [0]⟩) = true := by decide +kernel
  obtain ⟨unchanged, -, -⟩ := state_coherent keeping 20 "let f = 6;"
  obtain ⟨-, continues, functions⟩ := state_coherent keeping 20 "7 / 0"
  obtain ⟨v, kept, called⟩ := (Option.any_eq_true _ _).mp loads
  obtain ⟨⟨f, n⟩, callee, item⟩ := (Option.any_eq_true _ _).mp called
  have present := Array.mem_of_getElem? kept
  have reaches : v.Reaches f := .itself callee
  have loads : f.code.Loads 0 := ⟨0, .inl ⟨.here, of_decide_eq_true item⟩⟩
  obtain ⟨⟨k, made, makes⟩, same⟩ := functions v present f reaches
  refine ⟨?_, continues, v, present, f, k, made, reaches, loads, makes, (same k made makes 0 loads).2⟩
  split at refused
  · rename_i e failed
    exact unchanged _ failed (by simp) (by simp)
  · cases refused

end Session
end StackScript
