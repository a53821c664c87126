import StackScript.Proofs.Compiler.Layout
import StackScript.Proofs.Meaning.Scans

-- A table of names says of every name what the lists of names say.
namespace StackScript

theorem idxOf?_snoc (l : List String) (x y : String) :
    (l ++ [x]).idxOf? y = (l.idxOf? y).or (if x = y then some l.length else none) := by
  induction l with
  | nil => by_cases same : x = y <;> simp [same]
  | cons z rest ih =>
    rw [List.cons_append, List.idxOf?_cons, List.idxOf?_cons, ih]
    by_cases here : z = y
    · simp [here]
    · simp only [beq_iff_eq, here, if_false, Option.map_or]
      congr 1
      split <;> simp

def Scan.place? (s : Scan) (x : String) : Option (Storage × Nat) :=
  match s.vars.idxOf? x with
  | some i => some (.frame, i)
  | none => if s.itself = some x then some (.itself, 0) else (s.free.idxOf? x).map (.captured, ·)

def Names.outer? (globals : List String) (x : String) : Option (Storage × Nat) :=
  match globals.idxOf? x with
  | some i => some (.global, i)
  | none => (Builtin.all.find? fun b => b.name = x).map fun b => (.native, b.index)

def Names.place? (n : Names) (x : String) : Option (Storage × Nat) :=
  match n.scans with
  | [] => outer? n.globals x
  | s :: _ => (s.place? x).or (outer? n.globals x)

theorem Scan.place?_eq_none {s : Scan} {x : String} : s.place? x = none ↔ ¬ s.Knows x := by
  rw [place?, Knows]
  cases found : s.vars.idxOf? x with
  | some i =>
    have present : x ∈ s.vars := List.isSome_idxOf?.mp (by rw [found]; rfl)
    simp [present]
  | none =>
    rw [List.idxOf?_eq_none_iff] at found
    by_cases itself : s.itself = some x
    · simp [itself]
    · simp [found, itself]

def Symbol.place (symbol : Symbol) : Storage × Nat := (symbol.storage, symbol.index)

structure Scope.Reflects (s : Scope) (scan : Scan) : Prop where
  named : ∀ (x : String) (symbol : Symbol), s.symbols[x]? = some symbol → symbol.name = x
  places : ∀ x, (s.symbols[x]?).map Symbol.place = scan.place? x
  slots : s.slots = scan.vars.length
  free : s.captures.toList.map Symbol.name = scan.free
  distinct : scan.vars.Nodup

structure Scope.ReflectsOuter (s : Scope) (globals : List String) : Prop where
  named : ∀ (x : String) (symbol : Symbol), s.symbols[x]? = some symbol → symbol.name = x
  places : ∀ x, (s.symbols[x]?).map Symbol.place = Names.outer? globals x
  slots : s.slots = globals.length

namespace SymbolTable

def ReflectsIn : Scope → List Scope → List Scan → List String → Prop
  | s, [], [], globals => s.ReflectsOuter globals
  | s, around :: rest, scan :: scans, globals => s.Reflects scan ∧ ReflectsIn around rest scans globals
  | _, _, _, _ => False

def Reflects (t : SymbolTable) (n : Names) : Prop := ReflectsIn t.innermost t.enclosing n.scans n.globals

theorem outer?_storage {globals : List String} {x : String} {place : Storage × Nat}
    (found : Names.outer? globals x = some place) : place.1 = .global ∨ place.1 = .native := by
  rw [Names.outer?] at found
  cases global : globals.idxOf? x with
  | some i =>
    rw [global] at found
    cases found
    exact .inl rfl
  | none =>
    rw [global] at found
    obtain ⟨b, -, rfl⟩ := Option.map_eq_some_iff.mp found
    exact .inr rfl

theorem outer?_native {globals : List String} {x : String} {place : Storage × Nat}
    (found : Names.outer? globals x = some place) (native : place.1 = .native) (later : List String) :
    Names.outer? later x = some place ∨ ∃ n, Names.outer? later x = some (.global, n) := by
  unfold Names.outer? at found ⊢
  cases declared : later.idxOf? x with
  | some n => exact .inr ⟨n, rfl⟩
  | none =>
    cases known : globals.idxOf? x with
    | none =>
      rw [known] at found
      exact .inl found
    | some n =>
      rw [known] at found
      cases found
      cases native

theorem place?_storage {s : Scan} {x : String} {place : Storage × Nat} (found : s.place? x = some place) :
    place.1 ≠ .global ∧ place.1 ≠ .native := by
  rw [Scan.place?] at found
  cases var : s.vars.idxOf? x with
  | some i =>
    rw [var] at found
    cases found
    exact ⟨nofun, nofun⟩
  | none =>
    simp only [var] at found
    split at found
    · cases found
      exact ⟨nofun, nofun⟩
    · obtain ⟨i, -, rfl⟩ := Option.map_eq_some_iff.mp found
      exact ⟨nofun, nofun⟩

theorem place?_capture {s : Scan} {x : String} (unknown : ¬ s.Knows x) (y : String) :
    { s with free := s.free ++ [x] }.place? y = if x = y then some (.captured, s.free.length) else s.place? y := by
  rw [Scan.Knows, not_or, not_or] at unknown
  obtain ⟨var, itself, free⟩ := unknown
  rw [Scan.place?, Scan.place?]
  by_cases same : x = y
  · subst same
    have first : s.free.idxOf? x = none := List.idxOf?_eq_none_iff.mpr free
    simp [List.idxOf?_eq_none_iff.mpr var, itself, idxOf?_snoc, first]
  · simp [same, idxOf?_snoc]

theorem bind_named {s : Scope} (named : ∀ (x : String) (symbol : Symbol), s.symbols[x]? = some symbol → symbol.name = x)
    (new : Symbol) (x : String) (symbol : Symbol) (found : (s.bind new).symbols[x]? = some symbol) : symbol.name = x := by
  simp only [Scope.bind_symbols] at found
  split at found
  · cases found
    assumption
  · exact named x symbol found

theorem capture_reflects {s : Scope} {scan : Scan} {symbol : Symbol} (reflects : s.Reflects scan)
    (unknown : ¬ scan.Knows symbol.name) :
    (s.capture symbol).2.Reflects { scan with free := scan.free ++ [symbol.name] } ∧
      (s.capture symbol).1.place = (.captured, scan.free.length) := by
  have count : s.captures.size = scan.free.length := by rw [← reflects.free]; simp
  refine ⟨⟨bind_named reflects.named _, fun x => ?_, reflects.slots, ?_, reflects.distinct⟩, ?_⟩
  · rw [place?_capture unknown]
    simp only [Scope.capture, Scope.bind_symbols]
    split
    · rw [← count]
      rfl
    · exact reflects.places x
  · simp [Scope.capture, reflects.free]
  · rw [← count]
    rfl

theorem resolveIn_reflects {x : String} {s t : Scope} {rest others : List Scope} {symbol : Symbol} {scans : List Scan}
    {globals : List String} (reflects : ReflectsIn s rest scans globals)
    (found : resolveIn x s rest = some (symbol, t, others)) :
    ReflectsIn t others (Scan.mention x scans) globals ∧ symbol.name = x ∧
      (⟨Scan.mention x scans, globals, 0⟩ : Names).place? x = some symbol.place ∧
      (symbol.storage = .global ∨ symbol.storage = .native ↔ ¬ Scan.Within x scans) := by
  induction rest generalizing s t others symbol scans with
  | nil =>
    cases scans with
    | cons scan scans => exact reflects.elim
    | nil =>
      have outer : s.ReflectsOuter globals := reflects
      obtain ⟨here, rfl, rfl⟩ := resolveIn_nil found
      have place := outer.places x
      rw [here] at place
      refine ⟨reflects, outer.named x _ here, place.symm, ?_⟩
      simp only [Scan.not_within_nil, not_false_eq_true, iff_true]
      exact outer?_storage (show Names.outer? globals x = some symbol.place from place.symm)
  | cons around rest ih =>
    cases scans with
    | nil => exact reflects.elim
    | cons scan scans =>
      obtain ⟨inner, further⟩ := reflects
      have place := inner.places x
      obtain ⟨here, rfl, rfl⟩ | ⟨outer, later, beyond, here, deeper, rfl, how⟩ := resolveIn_cons found
      · rw [here] at place
        have knows : scan.Knows x := by
          by_contra unknown
          rw [Scan.place?_eq_none.mpr unknown] at place
          cases place
        obtain ⟨global, native⟩ := place?_storage (show scan.place? x = some symbol.place from place.symm)
        rw [Scan.mention, if_pos knows]
        refine ⟨⟨inner, further⟩, inner.named x _ here, ?_, ?_⟩
        · simp only [Names.place?, ← place]
          rfl
        · exact iff_of_false (not_or.mpr ⟨global, native⟩) (not_not_intro (Scan.within_cons.mpr (.inl knows)))
      · rw [here] at place
        have unknown : ¬ scan.Knows x := Scan.place?_eq_none.mp place.symm
        obtain ⟨reflects', named, place', outside⟩ := ih further deeper
        obtain ⟨storage, rfl, rfl⟩ | ⟨storage, rfl, rfl⟩ := how
        · have within := outside.mp storage
          rw [Scan.mention_outside within] at reflects' place'
          rw [Scan.mention, if_neg unknown, if_neg within]
          refine ⟨⟨inner, reflects'⟩, named, ?_, ?_⟩
          · -- Where no function around knows the name, it is looked up outside of them.
            have away : (⟨scans, globals, 0⟩ : Names).place? x = Names.outer? globals x := by
              cases scans with
              | nil => rfl
              | cons next scans =>
                rw [Scan.within_cons, not_or] at within
                simp only [Names.place?, Scan.place?_eq_none.mpr within.1]
                rfl
            rw [away] at place'
            simp only [Names.place?, ← place]
            exact place'
          · exact iff_of_true storage (by rw [Scan.within_cons]; exact not_or.mpr ⟨unknown, within⟩)
        · have within : Scan.Within x scans := not_not.mp fun away => not_or.mpr storage (outside.mpr away)
          rw [Scan.mention, if_neg unknown, if_pos within]
          rw [← named] at unknown
          obtain ⟨captures, kept⟩ := capture_reflects inner unknown
          rw [named] at captures unknown
          refine ⟨⟨captures, reflects'⟩, named, ?_, ?_⟩
          · simp only [Names.place?, place?_capture unknown, if_true, kept]
            rfl
          · exact iff_of_false (by simp [Scope.capture]) (not_not_intro (Scan.within_cons.mpr (.inr within)))

theorem resolve_reflects {x : String} {t u : SymbolTable} {symbol : Symbol} {n : Names} (reflects : t.Reflects n)
    (found : t.resolve x = .ok (symbol, u)) :
    u.Reflects (n.after [.mention x]) ∧ symbol.name = x ∧ (n.after [.mention x]).place? x = some symbol.place := by
  obtain ⟨reflects, named, place, -⟩ := resolveIn_reflects reflects (resolve_ok.mp found)
  exact ⟨reflects, named, place⟩

-- A declared name is the newest of the declared ones, and hides what it meant before.
theorem place?_declare {s : Scan} {x : String} (fresh : x ∉ s.vars) (y : String) :
    { s with vars := s.vars ++ [x] }.place? y = if x = y then some (.frame, s.vars.length) else s.place? y := by
  rw [Scan.place?, Scan.place?]
  by_cases same : x = y
  · subst same
    simp [idxOf?_snoc, List.idxOf?_eq_none_iff.mpr fresh]
  · simp [idxOf?_snoc, same]

theorem outer?_declare {globals : List String} {x : String} (fresh : x ∉ globals) (y : String) :
    Names.outer? (globals ++ [x]) y = if x = y then some (.global, globals.length) else Names.outer? globals y := by
  rw [Names.outer?, Names.outer?]
  by_cases same : x = y
  · subst same
    simp [idxOf?_snoc, List.idxOf?_eq_none_iff.mpr fresh]
  · simp [idxOf?_snoc, same]

theorem fresh_global {s : Scope} {globals : List String} {x : String} (outer : s.ReflectsOuter globals)
    (free : s.declares x = false) : x ∉ globals := by
  intro present
  obtain ⟨i, here⟩ := Option.isSome_iff_exists.mp (List.isSome_idxOf?.mpr present)
  have place := outer.places x
  rw [Names.outer?, here] at place
  obtain ⟨symbol, found, place⟩ := Option.map_eq_some_iff.mp place
  rw [Scope.declares, found] at free
  simp [show symbol.storage = .global from congrArg Prod.fst place] at free

theorem fresh_var {s : Scope} {scan : Scan} {x : String} (inner : s.Reflects scan) (free : s.declares x = false) :
    x ∉ scan.vars := by
  intro present
  obtain ⟨i, here⟩ := Option.isSome_iff_exists.mp (List.isSome_idxOf?.mpr present)
  have place := inner.places x
  rw [Scan.place?, here] at place
  obtain ⟨symbol, found, place⟩ := Option.map_eq_some_iff.mp place
  rw [Scope.declares, found] at free
  simp [show symbol.storage = .frame from congrArg Prod.fst place] at free

theorem declare_reflectsOuter {s : Scope} {globals : List String} {x : String} (outer : s.ReflectsOuter globals)
    (fresh : x ∉ globals) (mutability : Mutability) :
    Scope.ReflectsOuter { s.bind ⟨x, s.slots, mutability, .global⟩ with slots := s.slots + 1 } (globals ++ [x]) := by
  refine ⟨bind_named outer.named _, fun y => ?_, ?_⟩
  · simp only [Scope.bind_symbols, outer?_declare fresh, ← outer.slots]
    split
    · rfl
    · exact outer.places y
  · simp [outer.slots]

theorem declare_reflectsIn {s : Scope} {scan : Scan} {x : String} (inner : s.Reflects scan) (fresh : x ∉ scan.vars)
    (mutability : Mutability) :
    Scope.Reflects { s.bind ⟨x, s.slots, mutability, .frame⟩ with slots := s.slots + 1 }
      { scan with vars := scan.vars ++ [x] } := by
  refine ⟨bind_named inner.named _, fun y => ?_, ?_, inner.free, ?_⟩
  · simp only [Scope.bind_symbols, place?_declare fresh, ← inner.slots]
    split
    · rfl
    · exact inner.places y
  · simpa using inner.slots
  · simpa [List.nodup_append] using ⟨inner.distinct, fun y present same => fresh (same ▸ present)⟩

theorem define_reflects {x : String} {mutability : Mutability} {t u : SymbolTable} {symbol : Symbol} {n : Names}
    (reflects : t.Reflects n) (defined : t.define x mutability = .ok (symbol, u)) :
    u.Reflects (n.declare x) ∧ symbol.name = x ∧ (n.declare x).place? x = some symbol.place ∧
      symbol.place = match n.scans with
        | [] => (.global, n.globals.length)
        | s :: _ => (.frame, s.vars.length) := by
  obtain ⟨free, rfl, rfl⟩ := define_ok defined
  obtain ⟨s, rest⟩ := t
  obtain ⟨scans, globals, literals⟩ := n
  cases rest with
  | nil =>
    cases scans with
    | cons scan scans => exact reflects.elim
    | nil =>
      have outer : s.ReflectsOuter globals := reflects
      have fresh := fresh_global outer free
      refine ⟨declare_reflectsOuter outer fresh mutability, rfl, ?_, ?_⟩
      · simp only [Names.declare, Names.place?, outer?_declare fresh, if_true, ← outer.slots]
        rfl
      · simp only [← outer.slots]
        rfl
  | cons around rest =>
    cases scans with
    | nil => exact reflects.elim
    | cons scan scans =>
      obtain ⟨inner, further⟩ := reflects
      have fresh := fresh_var inner free
      refine ⟨⟨declare_reflectsIn inner fresh mutability, further⟩, rfl, ?_, ?_⟩
      · simp only [Names.declare, Names.place?, place?_declare fresh, if_true, ← inner.slots]
        rfl
      · simp only [← inner.slots]
        rfl

theorem enterAs_reflects {t : SymbolTable} {n : Names} (own : Option (String × Mutability)) (reflects : t.Reflects n) :
    (t.enterAs own).Reflects (n.enter (own.map Prod.fst) []) := by
  cases own with
  | none =>
    refine ⟨⟨fun x symbol found => ?_, fun x => ?_, rfl, rfl, List.nodup_nil⟩, reflects⟩
    · simp [enterAs, enter] at found
    · simp [enterAs, enter, Scan.place?]
  | some pair =>
    refine ⟨⟨fun x symbol found => ?_, fun x => ?_, rfl, rfl, List.nodup_nil⟩, reflects⟩
    · simp only [enterAs, enter, defineItself, Scope.bind_symbols, Scope.empty_symbols] at found
      split at found
      · cases found
        assumption
      · cases found
    · simp only [enterAs, enter, defineItself, Scope.bind_symbols, Scope.empty_symbols, Scan.place?]
      by_cases same : pair.1 = x <;> simp [same, Symbol.place]

theorem leave_reflects {t u : SymbolTable} {scope : Scope} {n : Names} {scan : Scan} {scans : List Scan}
    (reflects : t.Reflects { n with scans := scan :: scans }) (left : t.leave? = some (scope, u)) :
    scope.Reflects scan ∧ u.Reflects { n with scans } := by
  obtain ⟨s, rest⟩ := t
  cases rest with
  | nil => cases left
  | cons around rest =>
    cases left
    exact reflects

end SymbolTable

end StackScript
