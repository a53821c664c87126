import StackScript.Proofs.Compiler.Functions
import StackScript.Proofs.Syntax.Unplaced

-- Compiling does not look at places: a program without its places is compiled to the same code in the same way, and is
-- rejected with the same error.
namespace StackScript

mutual

theorem Expr.text_unplaced : ∀ e : Expr, e.unplaced.text = e.text
  | .identifier .. | .integer .. | .float .. | .boolean .. | .string .. => rfl
  | .unary span operator right => by
    have inner := right.text_unplaced
    rw [Expr.unplaced, Expr.text, Expr.text, inner]
  | .binary span operator left right => by
    have first := left.text_unplaced
    have second := right.text_unplaced
    rw [Expr.unplaced, Expr.text, Expr.text, first, second]
  | .conditional span condition consequence none => by
    have tested := condition.text_unplaced
    have chosen := blockText_unplaced "" consequence
    rw [Expr.unplaced, Expr.text, Expr.text, tested, chosen]
  | .conditional span condition consequence (some alternative) => by
    have tested := condition.text_unplaced
    have chosen := blockText_unplaced "" consequence
    have other := blockText_unplaced "" alternative
    rw [Expr.unplaced, Expr.text, Expr.text, tested, chosen, other]
  | .function span name parameters body => by
    have inner := blockText_unplaced "" body
    cases name <;> rw [Expr.unplaced, Expr.text, Expr.text, inner]
  | .call span callee arguments => by
    have called := callee.text_unplaced
    have given := listTexts_unplaced [] arguments
    rw [Expr.unplaced, Expr.text, Expr.text, called, given]
  | .array span elements => by
    have inner := listTexts_unplaced [] elements
    rw [Expr.unplaced, Expr.text, Expr.text, inner]
  | .hash span pairs => by
    have inner := pairTexts_unplaced [] pairs
    rw [Expr.unplaced, Expr.text, Expr.text, inner]
  | .index span target position => by
    have first := target.text_unplaced
    have second := position.text_unplaced
    rw [Expr.unplaced, Expr.text, Expr.text, first, second]

theorem Stmt.text_unplaced : ∀ s : Stmt, s.unplaced.text = s.text
  | .declare span mutability name value => by
    have inner := value.text_unplaced
    rw [Stmt.unplaced, Stmt.text, Stmt.text, inner]
  | .assign span name value => by
    have inner := value.text_unplaced
    rw [Stmt.unplaced, Stmt.text, Stmt.text, inner]
  | .returns span value => by
    have inner := value.text_unplaced
    rw [Stmt.unplaced, Stmt.text, Stmt.text, inner]
  | .expression span value => value.text_unplaced

theorem blockText_unplaced (written : String) : ∀ body : List Stmt,
    blockText written (bodyUnplaced body) = blockText written body
  | [] => rfl
  | s :: rest => by
    have here := s.text_unplaced
    have others := blockText_unplaced (written ++ s.text) rest
    rw [bodyUnplaced, blockText, blockText, here, others]

theorem listTexts_unplaced (made : List String) : ∀ es : List Expr, listTexts made (listUnplaced es) = listTexts made es
  | [] => rfl
  | e :: rest => by
    have here := e.text_unplaced
    have others := listTexts_unplaced (e.text :: made) rest
    rw [listUnplaced, listTexts, listTexts, here, others]

theorem pairTexts_unplaced (made : List String) : ∀ pairs : List (Expr × Expr),
    pairTexts made (pairsUnplaced pairs) = pairTexts made pairs
  | [] => rfl
  | (key, value) :: rest => by
    have first := key.text_unplaced
    have second := value.text_unplaced
    have others := pairTexts_unplaced ((key.text ++ ":" ++ value.text) :: made) rest
    rw [pairsUnplaced, pairTexts, pairTexts, first, second, others]

end

def Rejection.unplaced : Rejection → Rejection
  | .error e => .error e.unplaced
  | .defect d => .defect d

namespace Compiling

variable {α β : Type} {x y : Compiling α}

def unplacedResult : EStateM.Result Rejection Compiler α → EStateM.Result Rejection Compiler α
  | .ok a c => .ok a c
  | .error r c => .error r.unplaced c

-- `y` does what `x` does, and fails as `x` does but for the place of the error.
def Blind (x y : Compiling α) : Prop := ∀ c, y c = unplacedResult (x c)

def unplaced (x : Compiling α) : Compiling α := fun c => unplacedResult (x c)

theorem Blind.eq (blind : Blind x y) : y = unplaced x := funext blind

theorem blind_bind {f g : α → Compiling β} (first : Blind x y) (next : ∀ a, Blind (f a) (g a)) :
    Blind (x >>= f) (y >>= g) := by
  intro c
  have here := first c
  simp only [bind, EStateM.bind]
  rw [here]
  cases x c with
  | ok a d => exact next a d
  | error r d => rfl

theorem blind_pure (a : α) : Blind (pure a) (pure a) := fun _ => rfl

theorem blind_get : Blind get get := fun _ => rfl

theorem blind_modify (f : Compiler → Compiler) : Blind (modify f) (modify f) := fun _ => rfl

theorem blind_position : Blind position position := fun _ => rfl

theorem blind_defect (d : Defect) : Blind (throw (.defect d) : Compiling α) (throw (.defect d)) := fun _ => rfl

theorem blind_refuse (e : CompileError) : Blind (refuse e : Compiling α) (refuse e.unplaced) := fun _ => rfl

theorem blind_ite {p : Prop} [Decidable p] {x' y' : Compiling α} (yes : Blind x y) (no : Blind x' y') :
    Blind (if p then x else x') (if p then y else y') := by
  split
  · exact yes
  · exact no

theorem blind_emit (op : OpCode) (operands : List Nat) : Blind (emit op operands) (emit op operands) := by
  intro c
  rw [emit]
  cases Instruction.encode ⟨op, operands⟩ <;> rfl

theorem blind_checkLimit (value limit : Nat) (what : String) (span : Span) :
    Blind (checkLimit value limit what span) (checkLimit value limit what .unknown) :=
  blind_ite (blind_refuse _) (blind_pure ())

theorem blind_patch (position target : Nat) (span : Span) :
    Blind (patch position target span) (patch position target .unknown) := by
  apply blind_bind (blind_checkLimit _ _ _ _)
  intro _
  apply blind_bind blind_get
  intro c
  cases (c.fragment.code[position]?).bind OpCode.ofByte? with
  | none => exact blind_defect _
  | some op =>
    apply blind_ite
    · cases Instruction.encode ⟨op, [target]⟩ with
      | ok bytes => exact blind_modify _
      | error m => exact blind_defect _
    · exact blind_defect _

theorem blind_addConstant (v : Value) (span : Span) : Blind (addConstant v span) (addConstant v .unknown) := by
  apply blind_bind blind_get
  intro c
  apply blind_bind (blind_checkLimit _ _ _ _)
  intro _
  exact blind_bind (blind_modify _) fun _ => blind_pure _

theorem blind_emitConstant (v : Value) (span : Span) : Blind (emitConstant v span) (emitConstant v .unknown) :=
  blind_bind (blind_addConstant v span) fun _ => blind_emit _ _

theorem blind_define (name : String) (mutability : Mutability) (span : Span) :
    Blind (define name mutability span) (define name mutability .unknown) := by
  intro c
  rw [define, define]
  cases c.symbols.define name mutability <;> rfl

theorem blind_resolve (name : String) (span : Span) : Blind (resolve name span) (resolve name .unknown) := by
  intro c
  rw [resolve, resolve]
  cases c.symbols.resolve name <;> rfl

theorem blind_load (symbol : Symbol) : Blind (load symbol) (load symbol) := by
  rw [load]
  cases symbol.storage <;> exact blind_emit _ _

theorem blind_loadAll (symbols : List Symbol) : Blind (loadAll symbols) (loadAll symbols) := by
  induction symbols with
  | nil => exact blind_pure ()
  | cons symbol rest ih => exact blind_bind (blind_load symbol) fun _ => ih

theorem blind_store (symbol : Symbol) (span : Span) : Blind (store symbol span) (store symbol .unknown) := by
  apply blind_ite
  · exact blind_bind (blind_checkLimit _ _ _ _) fun _ => blind_emit _ _
  · exact blind_bind (blind_checkLimit _ _ _ _) fun _ => blind_emit _ _

theorem blind_leave : Blind leave leave := by
  intro c
  rw [leave]
  split <;> rfl

theorem blind_branch {body body' : Compiling Unit} (blind : Blind body body') : Blind (branch body) (branch body') := by
  apply blind_bind blind_position
  intro start
  apply blind_bind blind
  intro _
  apply blind_bind blind_get
  intro c
  exact blind_ite (blind_modify _) (blind_emit _ _)

theorem blind_conditional {condition condition' consequence consequence' alternative alternative' : Compiling Unit}
    (span : Span) (tested : Blind condition condition') (chosen : Blind consequence consequence')
    (other : Blind alternative alternative') :
    Blind (conditional span condition consequence alternative)
      (conditional .unknown condition' consequence' alternative') := by
  apply blind_bind tested
  intro _
  apply blind_bind blind_position
  intro skip
  apply blind_bind (blind_emit _ _)
  intro _
  apply blind_bind (blind_branch chosen)
  intro _
  apply blind_bind blind_position
  intro leap
  apply blind_bind (blind_emit _ _)
  intro _
  apply blind_bind blind_position
  intro behind
  apply blind_bind (blind_patch _ _ _)
  intro _
  apply blind_bind other
  intro _
  exact blind_bind blind_position fun _ => blind_patch _ _ _

theorem blind_declareAll (span : Span) (names : List String) :
    Blind (declareAll span names) (declareAll .unknown names) := by
  induction names with
  | nil => exact blind_pure ()
  | cons name rest ih => exact blind_bind (blind_define name .fixed span) fun _ => ih

theorem blind_finishBody : Blind finishBody finishBody := by
  apply blind_bind blind_get
  intro c
  have ends : Blind (do if !(← get).fragment.endsWith .returnValue 0 then emit .returnNull [])
      (do if !(← get).fragment.endsWith .returnValue 0 then emit .returnNull []) :=
    blind_bind blind_get fun _ => blind_ite (blind_emit _ _) (blind_pure ())
  apply blind_ite
  · exact blind_bind (blind_modify _) fun _ => ends
  · exact ends

theorem blind_madeFrom (code : Code) (scope : Scope) (parameters : Nat) (span : Span) :
    Blind (madeFrom code scope parameters span) (madeFrom code scope parameters .unknown) := by
  apply blind_bind (blind_loadAll _)
  intro _
  apply blind_bind (blind_addConstant _ _)
  intro index
  exact blind_ite (blind_emit _ _) (blind_emit _ _)

theorem blind_functionSteps {body body' : Compiling Unit} (parameters : List String) (span : Span)
    (blind : Blind body body') :
    Blind (functionSteps parameters span body) (functionSteps parameters .unknown body') := by
  apply blind_bind (blind_declareAll span parameters)
  intro _
  apply blind_bind blind
  intro _
  apply blind_bind blind_finishBody
  intro _
  apply blind_bind blind_leave
  intro left
  apply blind_bind (blind_checkLimit _ _ _ _)
  intro _
  apply blind_bind (blind_checkLimit _ _ _ _)
  intro _
  exact blind_madeFrom _ _ _ _

theorem blind_makeFunction {body body' : Compiling Unit} (name : Option (String × Mutability)) (parameters : List String)
    (span : Span) (blind : Blind body body') :
    Blind (makeFunction name parameters span body) (makeFunction name parameters .unknown body') := by
  have steps := blind_functionSteps parameters span blind
  apply blind_bind (blind_checkLimit _ _ _ _)
  intro _
  apply blind_bind (blind_modify _)
  intro _
  cases name with
  | none => exact steps
  | some own => exact blind_bind (blind_modify _) fun _ => steps

theorem blind_assignTo (name : String) (span : Span) : Blind (assignTo name span) (assignTo name .unknown) := by
  apply blind_bind (blind_resolve name span)
  intro symbol
  cases symbol.mutability with
  | fixed => exact blind_refuse _
  | assignable =>
    cases symbol.storage with
    | global => exact blind_emit _ _
    | frame => exact blind_emit _ _
    | _ => exact blind_refuse _

theorem blind_bound (name : String) (mutability : Mutability) (span : Span) :
    Blind (do store (← define name mutability span) span) (do store (← define name mutability .unknown) .unknown) :=
  blind_bind (blind_define name mutability span) fun symbol => blind_store symbol span

theorem blind_inOrder (steps : List (String × Compiling Unit)) :
    Blind (inOrder steps) (inOrder (steps.map fun step => (step.1, unplaced step.2))) := by
  induction steps with
  | nil => exact blind_pure ()
  | cons step rest ih => exact blind_bind (fun _ => rfl) fun _ => ih

theorem sorted_unplaced (steps : List (String × Compiling Unit)) :
    (steps.map fun step => (step.1, unplaced step.2)).mergeSort (fun a b => a.1 ≤ b.1) =
      (steps.mergeSort fun a b => a.1 ≤ b.1).map fun step => (step.1, unplaced step.2) := by
  symm
  apply List.map_mergeSort
  intros
  rfl

theorem blind_declareFunction {body body' : Compiling Unit} (span place : Span) (mutability : Mutability) (name : String)
    (parameters : List String) (blind : Blind body body') :
    Blind
      (do
        if mutability = .assignable && (← get).symbols.isGlobal then
          let symbol ← define name mutability span
          makeFunction none parameters place body
          store symbol span
        else
          makeFunction (some (name, mutability)) parameters place body
          store (← define name mutability span) span)
      (do
        if mutability = .assignable && (← get).symbols.isGlobal then
          let symbol ← define name mutability .unknown
          makeFunction none parameters .unknown body'
          store symbol .unknown
        else
          makeFunction (some (name, mutability)) parameters .unknown body'
          store (← define name mutability .unknown) .unknown) := by
  apply blind_bind blind_get
  intro c
  apply blind_ite
  · apply blind_bind (blind_define name mutability span)
    intro symbol
    exact blind_bind (blind_makeFunction none parameters place blind) fun _ => blind_store symbol span
  · exact blind_bind (blind_makeFunction (some (name, mutability)) parameters place blind) fun _ =>
      blind_bound name mutability span

mutual

theorem blind_statement : ∀ s : Stmt, Blind (statement s) (statement s.unplaced)
  | .expression span value => blind_bind (blind_expression value) fun _ => blind_emit _ _
  | .returns span value => blind_bind (blind_expression value) fun _ => blind_emit _ _
  | .assign span name value => blind_bind (blind_expression value) fun _ => blind_assignTo name span
  | .declare span mutability name value => by
    have bound := blind_bind (blind_expression value) fun _ => blind_bound name mutability span
    cases value with
    | function place own parameters body =>
      exact blind_declareFunction span place mutability name parameters (blind_statements body)
    | conditional place condition consequence alternative => cases alternative <;> exact bound
    | _ => exact bound

theorem blind_statements : ∀ body : List Stmt, Blind (statements body) (statements (bodyUnplaced body))
  | [] => blind_pure ()
  | s :: rest => blind_bind (blind_statement s) fun _ => blind_statements rest

theorem blind_expression : ∀ e : Expr, Blind (expression e) (expression e.unplaced)
  | .integer span n => blind_emitConstant _ _
  | .float span x => blind_emitConstant _ _
  | .string span s => blind_emitConstant _ _
  | .boolean span true => blind_emit _ _
  | .boolean span false => blind_emit _ _
  | .identifier span name => blind_bind (blind_resolve name span) fun symbol => blind_load symbol
  | .unary span operator right => by
    have inner := blind_expression right
    rw [Expr.unplaced, expression, expression]
    cases unaryOpCode? operator with
    | none => exact blind_refuse _
    | some op => exact blind_bind inner fun _ => blind_emit _ _
  | .binary span operator left right => by
    have first := blind_expression left
    have second := blind_expression right
    rw [Expr.unplaced, expression, expression]
    cases binaryOpCode? operator with
    | none => exact blind_refuse _
    | some op =>
      apply blind_ite
      · exact blind_bind second fun _ => blind_bind first fun _ => blind_emit _ _
      · exact blind_bind first fun _ => blind_bind second fun _ => blind_emit _ _
  | .conditional span condition consequence none =>
    blind_conditional span (blind_expression condition) (blind_statements consequence) (blind_emit _ _)
  | .conditional span condition consequence (some alternative) =>
    blind_conditional span (blind_expression condition) (blind_statements consequence)
      (blind_branch (blind_statements alternative))
  | .array span elements => by
    have inner := blind_expressions elements
    rw [Expr.unplaced, expression, expression, listUnplaced_eq, List.length_map, ← listUnplaced_eq]
    apply blind_bind (blind_checkLimit _ _ _ _)
    intro _
    exact blind_bind inner fun _ => blind_emit _ _
  | .hash span pairs => by
    have inner := pairSteps_unplaced pairs
    rw [Expr.unplaced, expression, expression, inner, sorted_unplaced, pairsUnplaced_eq, List.length_map]
    apply blind_bind (blind_checkLimit _ _ _ _)
    intro _
    exact blind_bind (blind_inOrder _) fun _ => blind_emit _ _
  | .index span target position =>
    blind_bind (blind_expression target) fun _ => blind_bind (blind_expression position) fun _ => blind_emit _ _
  | .function span name parameters body =>
    blind_makeFunction (name.map (·, .fixed)) parameters span (blind_statements body)
  | .call span callee arguments => by
    have called := blind_expression callee
    have given := blind_expressions arguments
    rw [Expr.unplaced, expression, expression, listUnplaced_eq, List.length_map, ← listUnplaced_eq]
    apply blind_bind (blind_checkLimit _ _ _ _)
    intro _
    exact blind_bind called fun _ => blind_bind given fun _ => blind_emit _ _

theorem blind_expressions : ∀ es : List Expr, Blind (expressions es) (expressions (listUnplaced es))
  | [] => blind_pure ()
  | e :: rest => blind_bind (blind_expression e) fun _ => blind_expressions rest

theorem pairSteps_unplaced : ∀ pairs : List (Expr × Expr),
    pairSteps (pairsUnplaced pairs) = (pairSteps pairs).map fun step => (step.1, unplaced step.2)
  | [] => rfl
  | (key, value) :: rest => by
    have here := blind_bind (blind_expression key) fun _ => blind_expression value
    have others := pairSteps_unplaced rest
    rw [pairsUnplaced, pairSteps, pairSteps, others, List.map_cons, ← here.eq, key.text_unplaced]

end

end Compiling

theorem Compiler.compile_unplaced (p : Program) (c : Compiler) :
    c.compile p.unplaced = Compiling.unplacedResult (c.compile p) := Compiling.blind_statements p.statements c

end StackScript
