import StackScript.Proofs.Compiler.Functions
import StackScript.Proofs.Syntax.Places

-- A program that cannot be compiled is blamed on the place of one of its nodes.
namespace StackScript
namespace Compiling

variable {P : Span → Prop} {α β : Type} {x y : Compiling α} {span : Span}

def Blamed (P : Span → Prop) : EStateM.Result Rejection Compiler α → Prop
  | .error (.error e) _ => P e.span
  | _ => True

def Blames (P : Span → Prop) (x : Compiling α) : Prop := ∀ c, Blamed P (x c)

theorem blames_bind {f : α → Compiling β} (first : Blames P x) (next : ∀ a, Blames P (f a)) : Blames P (x >>= f) := by
  intro c
  have here := first c
  simp only [bind, EStateM.bind]
  cases result : x c with
  | ok a d => exact next a d
  | error r d =>
    rw [result] at here
    cases r with
    | error e => exact here
    | defect => trivial

theorem blames_pure (a : α) : Blames P (pure a) := fun _ => trivial

theorem blames_get : Blames P get := fun _ => trivial

theorem blames_modify (f : Compiler → Compiler) : Blames P (modify f) := fun _ => trivial

theorem blames_position : Blames P position := fun _ => trivial

theorem blames_defect (defect : Defect) : Blames P (throw (.defect defect) : Compiling α) := fun _ => trivial

theorem blames_refuse {error : CompileError} (known : P error.span) : Blames P (refuse error : Compiling α) :=
  fun _ => known

theorem blames_ite {p : Prop} [Decidable p] (yes : Blames P x) (no : Blames P y) : Blames P (if p then x else y) := by
  split
  · exact yes
  · exact no

theorem blames_emit (op : OpCode) (operands : List Nat) : Blames P (emit op operands) := by
  intro c
  rw [emit]
  split
  all_goals trivial

theorem blames_leave : Blames P leave := by
  intro c
  rw [leave]
  split
  all_goals trivial

theorem blames_checkLimit (known : P span) (value limit : Nat) (what : String) :
    Blames P (checkLimit value limit what span) :=
  blames_ite (blames_refuse known) (blames_pure ())

theorem blames_patch (known : P span) (position target : Nat) : Blames P (patch position target span) := by
  apply blames_bind (blames_checkLimit known _ _ _)
  intro _
  apply blames_bind blames_get
  intro c
  split
  · apply blames_ite
    · split
      · exact blames_modify _
      · exact blames_defect _
    · exact blames_defect _
  · exact blames_defect _

theorem blames_addConstant (known : P span) (v : Value) : Blames P (addConstant v span) := by
  apply blames_bind blames_get
  intro c
  apply blames_bind (blames_checkLimit known _ _ _)
  intro _
  exact blames_bind (blames_modify _) fun _ => blames_pure _

theorem blames_emitConstant (known : P span) (v : Value) : Blames P (emitConstant v span) :=
  blames_bind (blames_addConstant known v) fun _ => blames_emit _ _

theorem blames_define (known : P span) (name : String) (mutability : Mutability) :
    Blames P (define name mutability span) := by
  intro c
  rw [define]
  split
  · trivial
  · exact known

theorem blames_resolve (known : P span) (name : String) : Blames P (resolve name span) := by
  intro c
  rw [resolve]
  split
  · trivial
  · exact known

theorem blames_load (symbol : Symbol) : Blames P (load symbol) := by
  rw [load]
  split
  all_goals exact blames_emit _ _

theorem blames_loadAll (symbols : List Symbol) : Blames P (loadAll symbols) := by
  induction symbols with
  | nil => exact blames_pure ()
  | cons symbol rest ih => exact blames_bind (blames_load symbol) fun _ => ih

theorem blames_store (known : P span) (symbol : Symbol) : Blames P (store symbol span) := by
  apply blames_ite
  · exact blames_bind (blames_checkLimit known _ _ _) fun _ => blames_emit _ _
  · exact blames_bind (blames_checkLimit known _ _ _) fun _ => blames_emit _ _

theorem blames_bound (known : P span) (name : String) (mutability : Mutability) :
    Blames P (do store (← define name mutability span) span) :=
  blames_bind (blames_define known name mutability) fun symbol => blames_store known symbol

theorem blames_assignTo (known : P span) (name : String) : Blames P (assignTo name span) := by
  apply blames_bind (blames_resolve known name)
  intro symbol
  split
  · exact blames_emit _ _
  · exact blames_emit _ _
  · exact blames_refuse known
  · exact blames_refuse known

theorem blames_branch {body : Compiling Unit} (blames : Blames P body) : Blames P (branch body) := by
  apply blames_bind blames_position
  intro start
  apply blames_bind blames
  intro _
  apply blames_bind blames_get
  intro c
  exact blames_ite (blames_modify _) (blames_emit _ _)

theorem blames_conditional (known : P span) {condition consequence alternative : Compiling Unit}
    (tested : Blames P condition) (chosen : Blames P consequence) (other : Blames P alternative) :
    Blames P (conditional span condition consequence alternative) := by
  apply blames_bind tested
  intro _
  apply blames_bind blames_position
  intro skip
  apply blames_bind (blames_emit _ _)
  intro _
  apply blames_bind (blames_branch chosen)
  intro _
  apply blames_bind blames_position
  intro leap
  apply blames_bind (blames_emit _ _)
  intro _
  apply blames_bind blames_position
  intro behind
  apply blames_bind (blames_patch known _ _)
  intro _
  apply blames_bind other
  intro _
  exact blames_bind blames_position fun _ => blames_patch known _ _

theorem blames_declareAll (known : P span) (names : List String) : Blames P (declareAll span names) := by
  induction names with
  | nil => exact blames_pure ()
  | cons name rest ih => exact blames_bind (blames_define known name .fixed) fun _ => ih

theorem blames_finishBody : Blames P finishBody := by
  apply blames_bind blames_get
  intro c
  have ends : Blames P (do if !(← get).fragment.endsWith .returnValue 0 then emit .returnNull []) :=
    blames_bind blames_get fun _ => blames_ite (blames_emit _ _) (blames_pure ())
  apply blames_ite
  · exact blames_bind (blames_modify _) fun _ => ends
  · exact ends

theorem blames_madeFrom (known : P span) (code : Code) (scope : Scope) (parameters : Nat) :
    Blames P (madeFrom code scope parameters span) := by
  apply blames_bind (blames_loadAll _)
  intro _
  apply blames_bind (blames_addConstant known _)
  intro index
  exact blames_ite (blames_emit _ _) (blames_emit _ _)

theorem blames_functionSteps (known : P span) (parameters : List String) {body : Compiling Unit}
    (blames : Blames P body) : Blames P (functionSteps parameters span body) := by
  apply blames_bind (blames_declareAll known parameters)
  intro _
  apply blames_bind blames
  intro _
  apply blames_bind blames_finishBody
  intro _
  apply blames_bind blames_leave
  intro left
  apply blames_bind (blames_checkLimit known _ _ _)
  intro _
  apply blames_bind (blames_checkLimit known _ _ _)
  intro _
  exact blames_madeFrom known _ _ _

theorem blames_makeFunction (known : P span) (name : Option (String × Mutability)) (parameters : List String)
    {body : Compiling Unit} (blames : Blames P body) : Blames P (makeFunction name parameters span body) := by
  have steps := blames_functionSteps known parameters blames
  apply blames_bind (blames_checkLimit known _ _ _)
  intro _
  apply blames_bind (blames_modify _)
  intro _
  cases name with
  | none => exact steps
  | some own => exact blames_bind (blames_modify _) fun _ => steps

theorem blames_declareFunction {place : Span} (known : P span) (inner : P place) (mutability : Mutability)
    (name : String) (parameters : List String) {body : Compiling Unit} (blames : Blames P body) :
    Blames P
      (do
        if mutability = .assignable && (← get).symbols.isGlobal then
          let symbol ← define name mutability span
          makeFunction none parameters place body
          store symbol span
        else
          makeFunction (some (name, mutability)) parameters place body
          store (← define name mutability span) span) := by
  apply blames_bind blames_get
  intro c
  apply blames_ite
  · apply blames_bind (blames_define known name mutability)
    intro symbol
    exact blames_bind (blames_makeFunction inner none parameters blames) fun _ => blames_store known symbol
  · exact blames_bind (blames_makeFunction inner (some (name, mutability)) parameters blames) fun _ =>
      blames_bound known name mutability

theorem blames_inOrder {steps : List (String × Compiling Unit)} (blames : ∀ step ∈ steps, Blames P step.2) :
    Blames P (inOrder steps) := by
  induction steps with
  | nil => exact blames_pure ()
  | cons step rest ih =>
    obtain ⟨first, others⟩ := List.forall_mem_cons.mp blames
    exact blames_bind first fun _ => ih others

mutual

theorem blames_statement : ∀ s : Stmt, s.Places P → Blames P (statement s)
  | .expression span value, places => blames_bind (blames_expression value places.2) fun _ => blames_emit _ _
  | .returns span value, places => blames_bind (blames_expression value places.2) fun _ => blames_emit _ _
  | .assign span name value, places =>
    blames_bind (blames_expression value places.2) fun _ => blames_assignTo places.1 name
  | .declare span mutability name value, places => by
    have bound := blames_bind (blames_expression value places.2) fun _ => blames_bound places.1 name mutability
    cases value with
    | function place own parameters body =>
      obtain ⟨known, inner, others⟩ := places
      exact blames_declareFunction known inner mutability name parameters (blames_statements body others)
    | conditional place condition consequence alternative => cases alternative <;> exact bound
    | _ => exact bound

theorem blames_statements : ∀ body : List Stmt, bodyPlaces P body → Blames P (statements body)
  | [], _ => blames_pure ()
  | s :: rest, places => blames_bind (blames_statement s places.1) fun _ => blames_statements rest places.2

theorem blames_expression : ∀ e : Expr, e.Places P → Blames P (expression e)
  | .integer span n, known => blames_emitConstant known _
  | .float span x, known => blames_emitConstant known _
  | .string span s, known => blames_emitConstant known _
  | .boolean span true, _ => blames_emit _ _
  | .boolean span false, _ => blames_emit _ _
  | .identifier span name, known => blames_bind (blames_resolve known name) fun symbol => blames_load symbol
  | .unary span operator right, places => by
    have inner := blames_expression right places.2
    rw [expression]
    split
    · exact blames_refuse places.1
    · exact blames_bind inner fun _ => blames_emit _ _
  | .binary span operator left right, places => by
    obtain ⟨known, first, second⟩ := places
    have first := blames_expression left first
    have second := blames_expression right second
    rw [expression]
    split
    · exact blames_refuse known
    · apply blames_ite
      · exact blames_bind second fun _ => blames_bind first fun _ => blames_emit _ _
      · exact blames_bind first fun _ => blames_bind second fun _ => blames_emit _ _
  | .conditional span condition consequence none, ⟨known, tested, chosen⟩ =>
    blames_conditional known (blames_expression condition tested) (blames_statements consequence chosen)
      (blames_emit _ _)
  | .conditional span condition consequence (some alternative), ⟨known, tested, chosen, other⟩ =>
    blames_conditional known (blames_expression condition tested) (blames_statements consequence chosen)
      (blames_branch (blames_statements alternative other))
  | .array span elements, ⟨known, inner⟩ => by
    have each := blames_expressions elements inner
    apply blames_bind (blames_checkLimit known _ _ _)
    intro _
    exact blames_bind each fun _ => blames_emit _ _
  | .hash span pairs, ⟨known, inner⟩ => by
    have each := blames_pairs pairs inner
    apply blames_bind (blames_checkLimit known _ _ _)
    intro _
    exact blames_bind (blames_inOrder fun step present => each step (List.mem_mergeSort.mp present)) fun _ =>
      blames_emit _ _
  | .index span target position, ⟨_, first, second⟩ =>
    blames_bind (blames_expression target first) fun _ =>
      blames_bind (blames_expression position second) fun _ => blames_emit _ _
  | .function span name parameters body, ⟨known, inner⟩ =>
    blames_makeFunction known _ parameters (blames_statements body inner)
  | .call span callee arguments, ⟨known, called, given⟩ => by
    have first := blames_expression callee called
    have others := blames_expressions arguments given
    apply blames_bind (blames_checkLimit known _ _ _)
    intro _
    exact blames_bind first fun _ => blames_bind others fun _ => blames_emit _ _

theorem blames_expressions : ∀ es : List Expr, listPlaces P es → Blames P (expressions es)
  | [], _ => blames_pure ()
  | e :: rest, places => blames_bind (blames_expression e places.1) fun _ => blames_expressions rest places.2

theorem blames_pairs : ∀ pairs : List (Expr × Expr), pairsPlaces P pairs →
    ∀ step ∈ pairSteps pairs, Blames P step.2
  | [], _ => by simp [pairSteps]
  | (key, value) :: rest, ⟨first, second, others⟩ => by
    have here := blames_bind (blames_expression key first) fun _ => blames_expression value second
    have later := blames_pairs rest others
    exact List.forall_mem_cons.mpr ⟨here, later⟩

end

end Compiling

theorem Compiler.compile_blames {P : Span → Prop} {p : Program} {c d : Compiler} {e : CompileError}
    (places : bodyPlaces P p.statements) (failed : c.compile p = .error (.error e) d) : P e.span := by
  have blamed := Compiling.blames_statements p.statements places c
  rw [compile] at failed
  rw [failed] at blamed
  exact blamed

end StackScript
