import StackScript.Proofs.Scope.Lives

-- A name means what the innermost scope that declares it says. Where that is the scope of a function around, the name is
-- captured on the way, and the captures lead back to it.
namespace StackScript

-- What a scope itself says of a name, be it declared, native or the function's own.
def Scope.own? (s : Scope) (x : String) : Option Symbol :=
  match s.symbols[x]? with
  | some symbol => if symbol.storage = .captured then none else some symbol
  | none => none

namespace SymbolTable

-- The innermost scope that has a name of its own, as the number of scopes to leave for it, and what it says.
def declarer? (x : String) : List Scope → Option (Nat × Symbol)
  | [] => none
  | s :: rest =>
    match s.own? x with
    | some symbol => some (0, symbol)
    | none => (declarer? x rest).map fun (hops, symbol) => (hops + 1, symbol)

-- A captured name stands for what was captured, seen from the scope around.
def follow : Symbol → List Scope → Nat → Option Symbol
  | symbol, _, 0 => some symbol
  | symbol, s :: rest, hops + 1 =>
    if symbol.storage = .captured then s.captures[symbol.index]?.bind (follow · rest hops) else none
  | _, [], _ + 1 => none

-- Where a name leads that its scope knows: to the scope that has it of its own.
structure Leads (x : String) (scopes : List Scope) (symbol : Symbol) (hops : Nat) (d : Symbol) : Prop where
  declared : declarer? x scopes = some (hops, d)
  follows : follow symbol scopes hops = some d
  named : symbol.name = d.name
  mutability : symbol.mutability = d.mutability
  -- Only what lies in a function is captured.
  inside : symbol.storage = .captured → hops ≠ 0 ∧ d.storage ≠ .global ∧ d.storage ≠ .native
  itself : symbol.storage ≠ .captured → hops = 0 ∧ symbol = d

theorem own_captured {s : Scope} {x : String} {symbol : Symbol} (found : s.symbols[x]? = some symbol)
    (captured : symbol.storage = .captured) : s.own? x = none := by
  simp [Scope.own?, found, captured]

theorem own_some {s : Scope} {x : String} {symbol : Symbol} :
    s.own? x = some symbol ↔ s.symbols[x]? = some symbol ∧ symbol.storage ≠ .captured := by
  rw [Scope.own?]
  cases s.symbols[x]? with
  | none => simp
  | some known =>
    by_cases captured : known.storage = .captured
    · simp only [captured, if_true, Option.some.injEq, reduceCtorEq, false_iff]
      rintro ⟨rfl, other⟩
      exact other captured
    · simp only [captured, if_false, Option.some.injEq]
      exact ⟨fun same => ⟨same, same ▸ captured⟩, And.left⟩

theorem declarer_here {s : Scope} {rest : List Scope} {x : String} {symbol : Symbol} (own : s.own? x = some symbol) :
    declarer? x (s :: rest) = some (0, symbol) := by
  rw [declarer?, own]

theorem declarer_beyond {s : Scope} {rest : List Scope} {x : String} (other : s.own? x = none) :
    declarer? x (s :: rest) = (declarer? x rest).map fun (hops, symbol) => (hops + 1, symbol) := by
  rw [declarer?, other]

theorem Leads.here {s : Scope} {rest : List Scope} {x : String} {symbol : Symbol} (found : s.symbols[x]? = some symbol)
    (own : symbol.storage ≠ .captured) : Leads x (s :: rest) symbol 0 symbol :=
  ⟨declarer_here (own_some.mpr ⟨found, own⟩), rfl, rfl, rfl, fun captured => absurd captured own, fun _ => ⟨rfl, rfl⟩⟩

-- A name leads as far as what was captured under it does, and one scope further.
theorem Leads.captured {s : Scope} {rest : List Scope} {x : String} {symbol outer d : Symbol} {hops : Nat}
    (further : Leads x rest outer hops d) (outside : outer.storage ≠ .global ∧ outer.storage ≠ .native)
    (found : s.symbols[x]? = some symbol) (present : s.captures[symbol.index]? = some outer)
    (same : symbol = { outer with index := symbol.index, storage := .captured }) :
    Leads x (s :: rest) symbol (hops + 1) d := by
  have storage : symbol.storage = .captured := by rw [same]
  refine ⟨?_, ?_, ?_, ?_, ?_, fun other => absurd storage other⟩
  · rw [declarer_beyond (own_captured found storage), further.declared]
    rfl
  · rw [follow, if_pos storage, present]
    exact further.follows
  · rw [same]
    exact further.named
  · rw [same]
    exact further.mutability
  · intro _
    refine ⟨Nat.succ_ne_zero hops, ?_⟩
    by_cases captured : outer.storage = .captured
    · exact (further.inside captured).2
    · exact (further.itself captured).2 ▸ outside

-- By induction on the scopes, from the innermost to the outermost.
theorem known_leads {s : Scope} {rest : List Scope} {x : String} {symbol : Symbol} (fits : Fitting s rest)
    (found : s.symbols[x]? = some symbol) : ∃ hops d, Leads x (s :: rest) symbol hops d := by
  induction rest generalizing s symbol with
  | nil =>
    refine ⟨0, symbol, .here found ?_⟩
    rcases Scope.Outside.outside fits found with storage | storage
    all_goals simp [storage]
  | cons around rest ih =>
    obtain ⟨inside, others⟩ := fits
    rcases inside.stored x symbol found with ⟨frame, -⟩ | ⟨outer, present, same⟩ | itself
    · exact ⟨0, symbol, .here found (by simp [frame])⟩
    · obtain ⟨taken, outside⟩ := inside.taken outer (Array.mem_of_getElem? present)
      have named : outer.name = x := by
        have named := inside.named x symbol found
        rw [same] at named
        exact named
      rw [named] at taken
      obtain ⟨hops, d, further⟩ := ih others taken
      exact ⟨hops + 1, d, further.captured outside found present same⟩
    · exact ⟨0, symbol, .here found (by simp [itself])⟩

-- What a name is resolved to if a scope has it of its own, and which scopes are left behind.
structure Means (x : String) (s : Scope) (rest : List Scope) (hops : Nat) (d symbol : Symbol) (t : Scope)
    (others : List Scope) : Prop where
  found : resolveIn x s rest = some (symbol, t, others)
  unchanged : hops = 0 ∨ d.storage = .global ∨ d.storage = .native → symbol = d ∧ t = s ∧ others = rest
  leads : d.storage ≠ .global ∧ d.storage ≠ .native → t.symbols[x]? = some symbol ∧ Leads x (t :: others) symbol hops d

theorem resolveIn_known {x : String} {s : Scope} {rest : List Scope} {symbol : Symbol}
    (known : s.symbols[x]? = some symbol) : resolveIn x s rest = some (symbol, s, rest) := by
  cases rest <;> simp [resolveIn, known]

theorem Means.known {x : String} {s : Scope} {rest : List Scope} {symbol d : Symbol} {hops : Nat}
    (known : s.symbols[x]? = some symbol) (leads : Leads x (s :: rest) symbol hops d) :
    Means x s rest hops d symbol s rest := by
  refine ⟨resolveIn_known known, ?_, fun _ => ⟨known, leads⟩⟩
  intro near
  by_cases captured : symbol.storage = .captured
  · obtain ⟨further, global, native⟩ := leads.inside captured
    rcases near with here | outside | outside
    · exact absurd here further
    · exact absurd outside global
    · exact absurd outside native
  · exact ⟨(leads.itself captured).2, rfl, rfl⟩

theorem Means.outside {x : String} {s around : Scope} {rest : List Scope} {hops : Nat} {outer d : Symbol}
    {t : Scope} {others : List Scope} (unknown : s.symbols[x]? = none) (means : Means x around rest hops d outer t others)
    (outside : d.storage = .global ∨ d.storage = .native) :
    Means x s (around :: rest) (hops + 1) d d s (around :: rest) := by
  obtain ⟨rfl, rfl, rfl⟩ := means.unchanged (.inr outside)
  refine ⟨?_, fun _ => ⟨rfl, rfl, rfl⟩, fun inside => ?_⟩
  · rcases outside with storage | storage
    all_goals simp [resolveIn, unknown, means.found, storage]
  · rcases outside with storage | storage
    · exact absurd storage inside.1
    · exact absurd storage inside.2

theorem Means.captures {x : String} {s around : Scope} {rest : List Scope} {hops : Nat} {outer d : Symbol} {t : Scope}
    {others : List Scope} (unknown : s.symbols[x]? = none) (means : Means x around rest hops d outer t others)
    (named : outer.name = x) (inside : d.storage ≠ .global ∧ d.storage ≠ .native) :
    Means x s (around :: rest) (hops + 1) d (s.capture outer).1 (s.capture outer).2 (t :: others) := by
  obtain ⟨known, leads⟩ := means.leads inside
  have within : outer.storage ≠ .global ∧ outer.storage ≠ .native := by
    by_cases captured : outer.storage = .captured
    · simp [captured]
    · exact (leads.itself captured).2 ▸ inside
  have taken : (s.capture outer).2.symbols[x]? = some (s.capture outer).1 := by simp [Scope.capture, named]
  refine ⟨?_, ?_, ?_⟩
  · exact resolveIn_capture unknown means.found within.1 within.2
  · rintro (never | outside | outside)
    · cases never
    · exact absurd outside inside.1
    · exact absurd outside inside.2
  · intro _
    exact ⟨taken, leads.captured within taken (by simp [Scope.capture]) rfl⟩

-- By induction on the scopes, from the innermost to the outermost.
theorem resolveIn_means {s : Scope} {rest : List Scope} (x : String) (fits : Fitting s rest) :
    match declarer? x (s :: rest) with
    | none => resolveIn x s rest = none
    | some (hops, d) => ∃ symbol t others, Means x s rest hops d symbol t others := by
  induction rest generalizing s with
  | nil =>
    cases here : s.symbols[x]? with
    | none => simp [declarer?, Scope.own?, here, resolveIn]
    | some symbol =>
      obtain ⟨hops, d, leads⟩ := known_leads fits here
      rw [leads.declared]
      exact ⟨symbol, s, [], .known here leads⟩
  | cons around rest ih =>
    cases here : s.symbols[x]? with
    | some symbol =>
      obtain ⟨hops, d, leads⟩ := known_leads fits here
      rw [leads.declared]
      exact ⟨symbol, s, around :: rest, .known here leads⟩
    | none =>
      have further := ih fits.2
      rw [declarer_beyond (by simp [Scope.own?, here])]
      cases declared : declarer? x (around :: rest) with
      | none =>
        rw [declared] at further
        simp only at further
        simp [resolveIn, here, further]
      | some found =>
        obtain ⟨hops, d⟩ := found
        rw [declared] at further
        obtain ⟨outer, t, others, means⟩ := further
        have named := (resolveIn_settled fits.2 means.found).named
        by_cases outside : d.storage = .global ∨ d.storage = .native
        · exact ⟨_, _, _, means.outside here outside⟩
        · exact ⟨_, _, _, means.captures here named (not_or.mp outside)⟩

-- A name is undefined if no open scope has it of its own. Else it is resolved to what the innermost of them says, and
-- nothing changes, if that lies here or outside all functions; and if not, to a captured name that the captures lead
-- from to there. It is resolved in the same way ever after, and no name is declared.
theorem resolve_lexical {t : SymbolTable} {lives : List Life} (reached : Reached t lives) (x : String) :
    match declarer? x t.scopes with
    | none => t.resolve x = .error (.undefined x)
    | some (hops, d) => ∃ symbol u, t.resolve x = .ok (symbol, u) ∧
        (if hops = 0 ∨ d.storage = .global ∨ d.storage = .native then symbol = d ∧ u = t
          else symbol.storage = .captured ∧ symbol.name = d.name ∧ symbol.mutability = d.mutability ∧
            follow symbol u.scopes hops = some d) ∧
        u.resolve x = .ok (symbol, u) ∧ u.counts = t.counts := by
  have resolved := resolveIn_means x reached.fits.1
  rw [scopes]
  cases declared : declarer? x (t.innermost :: t.enclosing) with
  | none =>
    rw [declared] at resolved
    simp only at resolved
    simp [resolve, resolved]
  | some found =>
    obtain ⟨hops, d⟩ := found
    rw [declared] at resolved
    obtain ⟨symbol, s, others, means⟩ := resolved
    have first : t.resolve x = .ok (symbol, ⟨s, others⟩) := resolve_ok.mpr means.found
    refine ⟨symbol, ⟨s, others⟩, first, ?_, ?_, resolve_counts first⟩
    · split
      · rename_i near
        obtain ⟨same, rfl, rfl⟩ := means.unchanged near
        exact ⟨same, rfl⟩
      · rename_i far
        obtain ⟨here, inside⟩ := not_or.mp far
        obtain ⟨-, leads⟩ := means.leads (not_or.mp inside)
        have captured : symbol.storage = .captured := by
          by_contra other
          exact here (leads.itself other).1
        exact ⟨captured, leads.named, leads.mutability, leads.follows⟩
    · by_cases outside : d.storage = .global ∨ d.storage = .native
      · obtain ⟨-, rfl, rfl⟩ := means.unchanged (.inr outside)
        exact first
      · exact resolve_ok.mpr (resolveIn_known (means.leads (not_or.mp outside)).1)

-- A parameter is captured by two functions within.
theorem resolve_lexical_nested : ∃ t lives symbol u, Reached t lives ∧ t.resolve "a" = .ok (symbol, u) ∧
    symbol.storage = .captured ∧ follow symbol u.scopes 2 = some ⟨"a", 0, .fixed, .frame⟩ ∧
    u.resolve "a" = .ok (symbol, u) := by
  have declared := (Reached.start [(0, "len")]).enter.define (show define _ "a" .fixed = .ok _ from rfl)
  have resolved := resolve_lexical declared.enter.enter "a"
  rw [show declarer? "a" _ = some (2, ⟨"a", 0, .fixed, .frame⟩) from rfl] at resolved
  obtain ⟨symbol, u, found, means, again, -⟩ := resolved
  obtain ⟨captured, -, -, follows⟩ := means
  exact ⟨_, _, symbol, u, declared.enter.enter, found, captured, follows, again⟩

end SymbolTable
end StackScript
