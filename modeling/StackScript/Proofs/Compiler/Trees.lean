import StackScript.Proofs.Compiler.Functions

-- What a compiler writes for a syntax tree lies as the layout of the tree says.
namespace StackScript
namespace Compiling

theorem declareFunction_writes {span place : Span} {mutability : Mutability} {name : String} {own : Option String}
    {parameters : List String} {body : List Stmt} (each : ∀ s ∈ body, StatementWrites s) :
    Writes (statement (.declare span mutability name (.function place own parameters body)))
      (Layout.statement (.declare span mutability name (.function place own parameters body))) := by
  intro c d ready run
  rw [statement, bind_ok] at run
  obtain ⟨_, _, got, run⟩ := run
  obtain ⟨rfl, rfl⟩ := get_ok.mp got
  rename_i c
  rw [Layout.statement]
  split at run
  · rename_i early
    obtain ⟨grown, done, lies⟩ := bindEarly_writes name mutability span
      (function_writes none parameters place each) _ _ ready run
    refine ⟨grown, done, fun k completes => ?_⟩
    have early : (mutability = .assignable && c.point.symbols.isGlobal) = true := early
    simp only [early, if_true]
    exact lies k completes
  · rename_i late
    obtain ⟨grown, done, lies⟩ := seq_writes (function_writes (some (name, mutability)) parameters place each)
      (bind_writes name mutability span) _ _ ready run
    refine ⟨grown, done, fun k completes => ?_⟩
    have late : ¬ (mutability = .assignable && c.point.symbols.isGlobal) = true := late
    simp only [late]
    exact lies k completes

theorem expressions_writes {es : List Expr} (each : ∀ e ∈ es, Writes (expression e) (Layout.expression e)) :
    Writes (expressions es) (Layout.expressions es) := by
  induction es with
  | nil => exact nothing_writes
  | cons e rest ih =>
    rw [expressions, Layout.expressions]
    exact seq_writes (each e List.mem_cons_self) (ih fun f present => each f (List.mem_cons_of_mem _ present))

def pair (p : Expr × Expr) : Compiling Unit := do expression p.1; expression p.2

def pairLayout (p : Expr × Expr) : Layout := (Layout.expression p.1).seq (Layout.expression p.2)

def byText (p q : Expr × Expr) : Bool := p.1.text ≤ q.1.text

theorem pairSteps_eq (pairs : List (Expr × Expr)) :
    pairSteps pairs = pairs.map fun p => (p.1.text, pair p) := by
  induction pairs with
  | nil => rfl
  | cons p rest ih => rw [pairSteps, ih]; rfl

theorem pairParts_eq (pairs : List (Expr × Expr)) :
    Layout.pairParts pairs = pairs.map fun p => (p.1.text, pairLayout p) := by
  induction pairs with
  | nil => rfl
  | cons p rest ih => rw [Layout.pairParts, ih]; rfl

theorem sorted_map {β : Type} (f : Expr × Expr → β) (pairs : List (Expr × Expr)) :
    (pairs.map fun p => (p.1.text, f p)).mergeSort (fun a b => a.1 ≤ b.1) =
      (pairs.mergeSort byText).map fun p => (p.1.text, f p) := by
  refine (List.map_mergeSort ?_).symm
  intro p _ q _
  rfl

theorem inOrder_writes {pairs : List (Expr × Expr)} (each : ∀ p ∈ pairs, Writes (pair p) (pairLayout p)) :
    Writes (inOrder (pairs.map fun p => (p.1.text, pair p)))
      (Layout.inOrder (pairs.map fun p => (p.1.text, pairLayout p))) := by
  induction pairs with
  | nil => exact nothing_writes
  | cons p rest ih =>
    exact seq_writes (each p List.mem_cons_self) (ih fun q present => each q (List.mem_cons_of_mem _ present))

theorem limited_writes {value limit : Nat} {what : String} {span : Span} {m : Compiling Unit} {layout : Layout}
    (writes : Writes m layout) : Writes (do checkLimit value limit what span; m) layout := by
  intro c d ready run
  obtain ⟨⟨⟩, c', checked, rest⟩ := bind_ok.mp run
  obtain ⟨-, rfl⟩ := checkLimit_ok.mp checked
  exact writes _ _ ready rest

mutual

theorem statement_writes : ∀ s : Stmt, StatementWrites s
  | .expression span value => by
    have inner := expression_writes value
    refine ⟨seq_writes inner (emit_writes _ _), ?_⟩
    intro place v same
    cases same
    exact inner
  | .returns span value => by
    refine ⟨seq_writes (expression_writes value) (emit_writes _ _), ?_⟩
    intro place v same
    cases same
  | .assign span name value => by
    refine ⟨seq_writes (expression_writes value) (assignTo_writes name span), ?_⟩
    intro place v same
    cases same
  | .declare span mutability name value => by
    refine ⟨?_, by intro place v same; cases same⟩
    have bound := seq_writes (expression_writes value) (bind_writes name mutability span)
    cases value with
    | function place own parameters body => exact declareFunction_writes (body_writes body)
    | _ => exact bound

theorem body_writes : ∀ body : List Stmt, ∀ s ∈ body, StatementWrites s
  | [], _, present => by cases present
  | first :: rest, s, present => by
    have here := statement_writes first
    have others := body_writes rest
    rcases List.mem_cons.mp present with rfl | later
    · exact here
    · exact others s later

theorem expression_writes : ∀ e : Expr, Writes (expression e) (Layout.expression e)
  | .integer span n => emitConstant_writes _ _
  | .float span x => emitConstant_writes _ _
  | .string span s => emitConstant_writes _ _
  | .boolean span true => emit_writes _ _
  | .boolean span false => emit_writes _ _
  | .identifier span name => name_writes name span
  | .unary span operator right => by
    have inner := expression_writes right
    rw [expression, Layout.expression]
    cases known : unaryOpCode? operator with
    | none => intro c d ready run; cases run
    | some op =>
      intro c d ready run
      obtain ⟨grown, done, lies⟩ := seq_writes inner (emit_writes op []) c d ready run
      exact ⟨grown, done, fun k completes => ⟨op, rfl, lies k completes⟩⟩
  | .binary span operator left right => by
    have first := expression_writes left
    have second := expression_writes right
    rw [expression, Layout.expression]
    cases known : binaryOpCode? operator with
    | none => intro c d ready run; cases run
    | some op =>
      intro c d ready run
      simp only at run
      split at run
      · rename_i swapped
        obtain ⟨grown, done, lies⟩ := seq_writes second (seq_writes first (emit_writes op [])) c d ready run
        exact ⟨grown, done, fun k completes => ⟨op, rfl, by rw [if_pos swapped]; exact lies k completes⟩⟩
      · rename_i ordered
        obtain ⟨grown, done, lies⟩ := seq_writes first (seq_writes second (emit_writes op [])) c d ready run
        exact ⟨grown, done, fun k completes => ⟨op, rfl, by rw [if_neg ordered]; exact lies k completes⟩⟩
  | .conditional span condition consequence none =>
    conditional_writes span (expression_writes condition) (branch_writes (body_writes consequence)) (emit_writes _ _)
  | .conditional span condition consequence (some alternative) =>
    conditional_writes span (expression_writes condition) (branch_writes (body_writes consequence))
      (branch_writes (body_writes alternative))
  | .array span elements =>
    limited_writes (seq_writes (expressions_writes (each_writes elements)) (emit_writes _ _))
  | .hash span pairs => by
    have each := pairs_write pairs
    rw [expression, Layout.expression, pairSteps_eq, pairParts_eq, sorted_map, sorted_map]
    refine limited_writes (seq_writes (inOrder_writes ?_) (emit_writes _ _))
    intro p present
    exact each p (List.mem_mergeSort.mp present)
  | .index span target position =>
    seq_writes (expression_writes target) (seq_writes (expression_writes position) (emit_writes _ _))
  | .function span own parameters body => function_writes (own.map (·, .fixed)) parameters span (body_writes body)
  | .call span callee arguments =>
    limited_writes (seq_writes (expression_writes callee)
      (seq_writes (expressions_writes (each_writes arguments)) (emit_writes _ _)))

theorem each_writes : ∀ es : List Expr, ∀ e ∈ es, Writes (expression e) (Layout.expression e)
  | [], _, present => by cases present
  | first :: rest, e, present => by
    have here := expression_writes first
    have others := each_writes rest
    rcases List.mem_cons.mp present with rfl | later
    · exact here
    · exact others e later

theorem pairs_write : ∀ pairs : List (Expr × Expr), ∀ p ∈ pairs, Writes (pair p) (pairLayout p)
  | [], _, present => by cases present
  | (key, value) :: rest, p, present => by
    have first := seq_writes (expression_writes key) (expression_writes value)
    have others := pairs_write rest
    rcases List.mem_cons.mp present with rfl | later
    · exact first
    · exact others p later

end

end Compiling

theorem SymbolTable.defineNative_valid {t : SymbolTable} {index : Nat} {name : String} (valid : t.Valid)
    (global : t.enclosing = []) (below : index < Builtin.all.length) :
    (t.defineNative index name).2.Valid ∧ (t.defineNative index name).2.enclosing = [] := by
  obtain ⟨s, rest⟩ := t
  cases global
  obtain ⟨outside, natives⟩ := Scope.outermost_iff.mp valid
  exact ⟨Scope.outermost_iff.mpr ⟨outside.native index name .fixed, natives.bind fun _ => below⟩, rfl⟩

namespace Compiler

theorem nativeNames_valid : nativeNames.Valid ∧ nativeNames.enclosing = [] := by
  have each (bs : List Builtin) (t : SymbolTable) (start : t.Valid ∧ t.enclosing = []) :
      (bs.foldl (fun t b => (t.defineNative b.index b.name).2) t).Valid ∧
      (bs.foldl (fun t b => (t.defineNative b.index b.name).2) t).enclosing = [] := by
    induction bs generalizing t with
    | nil => exact start
    | cons b bs ih =>
      refine ih _ (SymbolTable.defineNative_valid start.1 start.2 ?_)
      cases b <;> decide
  refine each _ _ ⟨Scope.outermost_iff.mpr ⟨.empty, ?_⟩, rfl⟩
  intro x symbol found
  simp [SymbolTable.empty] at found

theorem resume_ready {symbols : SymbolTable} (valid : symbols.Valid) (constants : Array Value) :
    (resume symbols constants).Ready :=
  ⟨valid, by intro last nothing; cases nothing⟩

def finished (c : Compiler) : Finished := ⟨c.fragment.code, c.constants, 0, [], c.symbols.globals, false⟩

theorem finished_completes {c : Compiler} (valid : c.symbols.Valid) (main : c.symbols.enclosing = []) :
    c.finished.Completes c 0 := by
  rw [SymbolTable.Valid, main] at valid
  have outermost : c.symbols.innermost.Outermost := valid
  refine ⟨⟨List.prefix_rfl, ?_, ?_, ?_, Nat.le_refl _⟩, .refl _ _ _⟩
  · rw [SymbolTable.isGlobal, main]
    rfl
  · intro nested
    cases nested
  · rw [outermost.captures]
    exact List.prefix_rfl

-- The code of a program lies in what is written when it is compiled to its end.
theorem compile_lies {p : Program} {c d : Compiler} (ready : c.Ready) (main : c.symbols.enclosing = [])
    (run : c.compile p = .ok () d) :
    c.Extends d ∧ d.Ready ∧ d.symbols.enclosing = [] ∧
      Layout.statements p.statements d.finished c.point d.point := by
  obtain ⟨grown, done, lies⟩ := Compiling.statements_writes
    (fun s present => (Compiling.body_writes p.statements s present).1) c d ready run
  have global : d.symbols.enclosing = [] := by
    have chain := grown.symbols.enclosing
    rw [main] at chain
    exact List.forall₂_nil_left_iff.mp chain
  exact ⟨grown, done, global, lies d.finished ((finished_completes done.symbols global).behind (Nat.zero_le _))⟩

end Compiler

def Program.Compiles (p : Program) : Prop := ∃ d, Compiler.new.compile p = .ok () d

instance (p : Program) : Decidable p.Compiles :=
  match run : Compiler.new.compile p with
  | .ok _ d => .isTrue ⟨d, run⟩
  | .error _ _ => .isFalse fun ⟨_, ok⟩ => by rw [run] at ok; cases ok

end StackScript
