import StackScript.Proofs.Compiler.Endings

-- A compiler goes from state to state by single edits, whether what it compiles succeeds or fails.
namespace StackScript.Compiling

open Compiler (Edit Edits)

variable {α β : Type} {c d : Compiler}

def outcome (m : Compiling α) (c : Compiler) : Compiler :=
  match m c with
  | .ok _ d | .error _ d => d

theorem outcome_ok {m : Compiling α} {a : α} (run : m c = .ok a d) : outcome m c = d := by
  rw [outcome, run]

def Goes (m : Compiling α) : Prop := ∀ c, c.Recorded → Edits c (outcome m c)

-- A step whose last instruction is no pop, so that a pop may follow.
structure YieldsFrom (m : Compiling Unit) (c : Compiler) : Prop where
  edits : Edits c (outcome m c)
  last : ∀ d, m c = .ok () d → ∃ e, d.fragment.last = some e ∧ e.opcode ≠ .pop

def Yields (m : Compiling Unit) : Prop := ∀ c, c.Recorded → YieldsFrom m c

theorem Yields.goes {m : Compiling Unit} (yields : Yields m) : Goes m := fun c recorded => (yields c recorded).edits

theorem Goes.ok {m : Compiling α} (goes : Goes m) (recorded : c.Recorded) {a : α} (run : m c = .ok a d) : Edits c d := by
  rw [← outcome_ok run]
  exact goes c recorded

theorem bind_error {x : Compiling α} {f : α → Compiling β} {r : Rejection} (run : (x >>= f) c = .error r d) :
    x c = .error r d ∨ ∃ a b, x c = .ok a b ∧ f a b = .error r d := by
  simp only [bind, EStateM.bind] at run
  cases first : x c with
  | ok a b =>
    rw [first] at run
    exact .inr ⟨a, b, rfl, run⟩
  | error r' e =>
    rw [first] at run
    cases run
    exact .inl rfl

theorem checkLimit_error {value limit : Nat} {what : String} {span : Span} {r : Rejection}
    (run : checkLimit value limit what span c = .error r d) : d = c := by
  unfold checkLimit at run
  split at run
  · cases run
    rfl
  · cases run

theorem edits_bind {x : Compiling α} {f : α → Compiling β} (first : Edits c (outcome x c))
    (next : ∀ a d, x c = .ok a d → Edits d (outcome (f a) d)) : Edits c (outcome (x >>= f) c) := by
  unfold outcome at first ⊢
  simp only [bind, EStateM.bind]
  cases run : x c with
  | ok a d =>
    rw [run] at first
    exact first.trans (next a d run)
  | error r d =>
    rw [run] at first
    exact first

theorem Goes.bind {x : Compiling α} {f : α → Compiling β} (first : Goes x) (next : ∀ a, Goes (f a)) : Goes (x >>= f) :=
  fun c recorded => edits_bind (first c recorded) fun a d run => next a d ((first.ok recorded run).recorded recorded)

theorem yields_bind {x : Compiling α} {f : α → Compiling Unit} (first : Edits c (outcome x c))
    (next : ∀ a d, x c = .ok a d → YieldsFrom (f a) d) : YieldsFrom (x >>= f) c := by
  refine ⟨edits_bind first fun a d run => (next a d run).edits, fun e run => ?_⟩
  obtain ⟨a, d, ran, rest⟩ := bind_ok.mp run
  exact (next a d ran).last e rest

theorem Yields.bind {x : Compiling α} {f : α → Compiling Unit} (first : Goes x) (next : ∀ a, Yields (f a)) :
    Yields (x >>= f) :=
  fun c recorded => yields_bind (first c recorded) fun a d run => next a d ((first.ok recorded run).recorded recorded)

theorem edits_one {m : Compiling α} (succeeds : ∀ a d, m c = .ok a d → Edit c d) (fails : ∀ r d, m c = .error r d → d = c) :
    Edits c (outcome m c) := by
  unfold outcome
  cases run : m c with
  | ok a d => exact .single (succeeds a d run)
  | error r d =>
    rw [fails r d run]
    exact .refl

theorem pure_goes (a : α) : Goes (pure a : Compiling α) := fun _ _ => .refl

theorem refuse_goes (e : CompileError) : Goes (refuse e : Compiling α) := fun _ _ => .refl

theorem refuse_yields (e : CompileError) : Yields (refuse e) :=
  fun c recorded => ⟨refuse_goes e c recorded, fun _ run => by cases run⟩

theorem get_goes : Goes (get : Compiling Compiler) := fun _ _ => .refl

theorem position_goes : Goes position := fun _ _ => .refl

theorem checkLimit_goes (value limit : Nat) (what : String) (span : Span) : Goes (checkLimit value limit what span) := by
  unfold checkLimit
  split
  · exact refuse_goes _
  · exact pure_goes _

theorem emit_edits {op : OpCode} {operands : List Nat}
    (apart : op = .pop → ∀ e, c.fragment.last = some e → e.opcode ≠ .pop) : Edits c (outcome (emit op operands) c) := by
  refine edits_one (fun _ d run => .emit apart run) fun r d run => ?_
  rw [emit] at run
  split at run
  · cases run
  · cases run
    rfl

theorem emit_goes {op : OpCode} (operands : List Nat) (other : op ≠ .pop) : Goes (emit op operands) :=
  fun _ _ => emit_edits fun popped => absurd popped other

theorem emit_yields {op : OpCode} (operands : List Nat) (other : op ≠ .pop) : Yields (emit op operands) := by
  refine fun c recorded => ⟨emit_goes operands other c recorded, fun d run => ?_⟩
  obtain ⟨bytes, -, rfl⟩ := emit_ok.mp run
  exact ⟨_, rfl, other⟩

theorem addConstant_goes (v : Value) (span : Span) : Goes (addConstant v span) := by
  intro c _
  refine edits_one (fun _ d run => .addConstant run) fun r d run => ?_
  obtain wrong | ⟨_, _, got, rest⟩ := bind_error run
  · cases wrong
  obtain ⟨rfl, rfl⟩ := get_ok.mp got
  obtain limit | ⟨_, _, -, pushed⟩ := bind_error rest
  · exact checkLimit_error limit
  · cases pushed

theorem define_goes (name : String) (mutability : Mutability) (span : Span) : Goes (define name mutability span) := by
  intro c _
  refine edits_one (fun _ d run => .define run) fun r d run => ?_
  rw [define] at run
  split at run
  · cases run
  · cases run
    rfl

theorem resolve_goes (name : String) (span : Span) : Goes (resolve name span) := by
  intro c _
  refine edits_one (fun _ d run => .resolve run) fun r d run => ?_
  rw [resolve] at run
  split at run
  · cases run
  · cases run
    rfl

theorem leave_goes : Goes leave := by
  intro c _
  refine edits_one (fun pair d run => .leave run) fun r d run => ?_
  rw [leave] at run
  split at run <;> cases run

theorem patch_fails {position target : Nat} {span : Span} {r : Rejection}
    (run : patch position target span c = .error r d) : d = c := by
  obtain limit | ⟨_, _, checked, rest⟩ := bind_error run
  · exact checkLimit_error limit
  obtain ⟨-, rfl⟩ := checkLimit_ok.mp checked
  obtain wrong | ⟨_, _, got, write⟩ := bind_error rest
  · cases wrong
  obtain ⟨rfl, rfl⟩ := get_ok.mp got
  rename_i now
  cases byte : (now.fragment.code[position]?).bind OpCode.ofByte? with
  | none =>
    rw [byte] at write
    cases write
    rfl
  | some op =>
    rw [byte] at write
    simp only at write
    split at write
    · cases encoded : Instruction.encode ⟨op, [target]⟩ with
      | ok bytes =>
        rw [encoded] at write
        cases write
      | error m =>
        rw [encoded] at write
        cases write
        rfl
    · cases write
      rfl

theorem emitConstant_yields (v : Value) (span : Span) : Yields (emitConstant v span) :=
  .bind (addConstant_goes v span) fun _ => emit_yields _ (by simp)

theorem load_yields (symbol : Symbol) : Yields (load symbol) := by
  unfold load
  cases symbol.storage <;> exact emit_yields _ (by simp)

theorem loadAll_goes (symbols : List Symbol) : Goes (loadAll symbols) := by
  induction symbols with
  | nil => exact pure_goes _
  | cons symbol rest ih => exact (load_yields symbol).goes.bind fun _ => ih

theorem store_goes (symbol : Symbol) (span : Span) : Goes (store symbol span) := by
  unfold store
  split
  · exact (checkLimit_goes _ _ _ _).bind fun _ => emit_goes _ (by simp)
  · exact (checkLimit_goes _ _ _ _).bind fun _ => emit_goes _ (by simp)

theorem assignTo_goes (name : String) (span : Span) : Goes (assignTo name span) := by
  refine (resolve_goes name span).bind fun symbol => ?_
  cases symbol.mutability <;> cases symbol.storage <;>
    first | exact refuse_goes _ | exact emit_goes _ (by simp)

-- Steps that are followed together with the instructions that have been written.

variable {is : List Instruction} {n : Unit → Compiling Unit}

theorem yields_position {f : Nat → Compiling Unit} (next : YieldsFrom (f c.fragment.code.size) c) :
    YieldsFrom (position >>= f) c := ⟨next.edits, next.last⟩

theorem yields_emit {op : OpCode} {operands : List Nat} (other : op ≠ .pop) (recorded : c.Recorded)
    (innermost : c.fragment.Recorded is)
    (next : ∀ d, d.Recorded → d.fragment.Recorded (is ++ [⟨op, operands⟩]) → YieldsFrom (n ()) d) :
    YieldsFrom (emit op operands >>= n) c := by
  have goes := emit_goes operands other
  refine yields_bind (goes c recorded) fun _ d run => next d ((goes.ok recorded run).recorded recorded) ?_
  obtain ⟨bytes, encoded, rfl⟩ := emit_ok.mp run
  exact innermost.append (fun popped => absurd popped other) encoded

theorem shifts_recorded {m : Compiling Unit} (shifts : Shifts m) (goes : Goes m) (recorded : c.Recorded)
    (innermost : c.fragment.Recorded is) (run : m c = .ok () d) : ∃ new, d.fragment.Recorded (is ++ new) := by
  obtain ⟨f, new, ran, beside, -, -⟩ := shifts [] is is c c d ⟨rfl, rfl, innermost.beside⟩ run
  cases run.symm.trans ran
  obtain ⟨js, known⟩ := ((goes.ok recorded run).recorded recorded).innermost
  obtain rfl := Instruction.assemble_injective known.whole beside.fragment.alone
  exact ⟨new, known⟩

theorem yields_step {m : Compiling Unit} (goes : Goes m) (shifts : Shifts m) (recorded : c.Recorded)
    (innermost : c.fragment.Recorded is)
    (next : ∀ d new, d.Recorded → d.fragment.Recorded (is ++ new) → m c = .ok () d → YieldsFrom (n ()) d) :
    YieldsFrom (m >>= n) c := by
  refine yields_bind (goes c recorded) fun _ d run => ?_
  obtain ⟨new, written⟩ := shifts_recorded shifts goes recorded innermost run
  exact next d new ((goes.ok recorded run).recorded recorded) written run

variable {front back : List Instruction} {i : Instruction} {position target : Nat} {span : Span}

theorem patch_edits (innermost : c.fragment.Recorded (front ++ i :: back))
    (here : position = OpCode.widths (front.map Instruction.opcode)) :
    Edits c (outcome (patch position target span) c) := by
  subst here
  exact edits_one (fun _ _ run => .patch innermost.whole run) fun _ _ run => patch_fails run

theorem yields_patch (recorded : c.Recorded) (innermost : c.fragment.Recorded (front ++ i :: back))
    (here : position = OpCode.widths (front.map Instruction.opcode))
    (next : ∀ d, d.Recorded → d.fragment.Recorded (front ++ ⟨i.opcode, [target]⟩ :: back) → YieldsFrom (n ()) d) :
    YieldsFrom (patch position target span >>= n) c := by
  have edits : Edits c (outcome (patch position target span) c) := patch_edits innermost here
  refine yields_bind edits fun _ d run => next d ((outcome_ok run ▸ edits).recorded recorded) ?_
  subst here
  obtain ⟨-, item⟩ := innermost.beside.items
  obtain ⟨-, -, bytes, encoded, rfl⟩ := (patch_ok item).mp run
  exact innermost.write encoded

theorem patch_yields (innermost : c.fragment.Recorded (front ++ i :: back))
    (here : position = OpCode.widths (front.map Instruction.opcode))
    (kept : ∃ e, c.fragment.last = some e ∧ e.opcode ≠ .pop) : YieldsFrom (patch position target span) c := by
  refine ⟨patch_edits innermost here, fun d run => ?_⟩
  subst here
  obtain ⟨-, item⟩ := innermost.beside.items
  obtain ⟨-, -, bytes, -, rfl⟩ := (patch_ok item).mp run
  exact kept

-- The first jump stands between condition and branch, the second between the branches.
theorem conditional_yields (span : Span) {condition yes no : Compiling Unit} (tests : Goes condition)
    (takes : Goes (branch yes)) (skips : Yields no) (taken : Shifts (branch yes)) (skipped : Shifts no) :
    Yields (conditional span condition yes no) := by
  intro c recorded
  refine yields_bind (tests c recorded) fun _ c1 run1 => ?_
  have r1 := (tests.ok recorded run1).recorded recorded
  obtain ⟨is, i1⟩ := r1.innermost
  refine yields_position (yields_emit (by simp) r1 i1 fun c2 r2 i2 => ?_)
  refine yields_step takes taken r2 i2 fun c3 js r3 i3 _ => ?_
  refine yields_position (yields_emit (by simp) r3 i3 fun c4 r4 i4 => yields_position ?_)
  simp only [List.append_assoc, List.cons_append, List.nil_append] at i4
  refine yields_patch r4 i4 i1.beside.size_alone fun c5 r5 i5 => ?_
  refine yields_step skips.goes skipped r5 i5 fun c6 ks r6 i6 run6 => yields_position ?_
  rw [List.append_assoc, List.cons_append, List.append_assoc, List.singleton_append, ← List.cons_append,
    ← List.append_assoc] at i6
  refine patch_yields i6 ?_ ((skips c5 r5).last c6 run6)
  rw [i3.beside.size_alone]
  simp

structure StatementGoes (s : Stmt) : Prop where
  goes : Goes (statement s)
  value : ∀ span v, s = .expression span v → Yields (expression v)

theorem statements_goes {body : List Stmt} (each : ∀ s ∈ body, StatementGoes s) : Goes (statements body) := by
  induction body with
  | nil => exact pure_goes _
  | cons s rest ih =>
    rw [statements]
    exact (each s List.mem_cons_self).goes.bind fun _ => ih fun t present => each t (List.mem_cons_of_mem _ present)

-- Only a pop is taken back.
theorem dropping_edits {since : Nat} (ends : c.fragment.endsWith .pop since = true) :
    Edit c { c with fragment := c.fragment.dropLast } := by
  obtain ⟨e, last, popped, -⟩ := Fragment.endsWith_some ends
  exact .dropLast last popped

theorem branch_goes {body : Compiling Unit} (goes : Goes body) : Goes (branch body) := by
  refine position_goes.bind fun start => goes.bind fun _ => ?_
  intro c recorded
  refine edits_bind (get_goes c recorded) fun _ _ got => ?_
  obtain ⟨rfl, rfl⟩ := get_ok.mp got
  split
  · rename_i ends
    exact .single (dropping_edits ends)
  · exact emit_goes _ (by simp) _ recorded

theorem branch_yields {body : List Stmt} (each : ∀ s ∈ body, StatementGoes s) : Yields (branch (statements body)) := by
  intro c recorded
  refine ⟨branch_goes (statements_goes each) c recorded, fun f run => ?_⟩
  obtain ⟨is, innermost⟩ := recorded.innermost
  by_cases ends : ∃ span value, body.getLast? = some (.expression span value)
  · obtain ⟨span, value, last⟩ := ends
    obtain ⟨front, rfl⟩ := List.getLast?_eq_some_iff.mp last
    rw [branch_value innermost.toExact] at run
    obtain ⟨⟨⟩, d, fronted, run⟩ := bind_ok.mp run
    obtain ⟨⟨⟩, e, computed, forgot⟩ := bind_ok.mp run
    have fronts : Goes (statements front) := statements_goes fun s present => each s (List.mem_append_left _ present)
    have yields := (each _ (by simp)).value span value rfl d ((fronts.ok recorded fronted).recorded recorded)
    obtain rfl := modify_ok.mp forgot
    exact yields.last e computed
  · have other : ∀ span value, body.getLast? ≠ some (.expression span value) :=
      fun span value last => ends ⟨span, value, last⟩
    rw [branch_other innermost.toExact other] at run
    obtain ⟨⟨⟩, d, -, closed⟩ := bind_ok.mp run
    obtain ⟨bytes, -, rfl⟩ := emit_ok.mp closed
    exact ⟨_, rfl, by simp⟩

theorem finishBody_goes : Goes finishBody := by
  have closing : Goes (do if !(← get).fragment.endsWith .returnValue 0 then emit .returnNull []) := by
    refine get_goes.bind fun c => ?_
    split
    · exact emit_goes _ (by simp)
    · exact pure_goes _
  intro c recorded
  refine edits_bind (get_goes c recorded) fun _ _ got => ?_
  obtain ⟨rfl, rfl⟩ := get_ok.mp got
  split
  · rename_i now ends
    obtain ⟨e, last, popped, -⟩ := Fragment.endsWith_some ends
    have replaced : Edits now { now with fragment := now.fragment.replaceLast .returnValue } := .single (.replaceLast last popped)
    exact edits_bind replaced fun _ d run => by
      cases modify_ok.mp run
      exact closing _ (replaced.recorded recorded)
  · exact closing _ recorded

theorem declareAll_goes (span : Span) (names : List String) : Goes (declareAll span names) := by
  induction names with
  | nil => exact pure_goes _
  | cons name rest ih => exact (define_goes name .fixed span).bind fun _ => ih

theorem madeFrom_yields (code : Code) (scope : Scope) (parameters : Nat) (span : Span) :
    Yields (madeFrom code scope parameters span) := by
  refine .bind (loadAll_goes _) fun _ => .bind (addConstant_goes _ _) fun index => ?_
  split
  · exact emit_yields _ (by simp)
  · exact emit_yields _ (by simp)

theorem makeFunction_yields (own : Option (String × Mutability)) (parameters : List String) (span : Span)
    {body : Compiling Unit} (goes : Goes body) : Yields (makeFunction own parameters span body) := by
  have steps : Yields (functionSteps parameters span body) :=
    .bind (declareAll_goes _ _) fun _ => .bind goes fun _ => .bind finishBody_goes fun _ => .bind leave_goes fun pair =>
      .bind (checkLimit_goes _ _ _ _) fun _ => .bind (checkLimit_goes _ _ _ _) fun _ => madeFrom_yields _ _ _ _
  refine .bind (checkLimit_goes _ _ _ _) fun _ => ?_
  have entering : Goes enter := fun c _ => .single (.enter rfl)
  refine .bind entering fun _ => ?_
  cases own with
  | none => exact steps
  | some pair =>
    have naming : Goes (modify fun c => { c with symbols := (c.symbols.defineItself pair.1 pair.2).2 }) :=
      fun c _ => .single .defineItself
    exact .bind naming fun _ => steps

theorem declareFunction_goes {span place : Span} {mutability : Mutability} {name : String} {own : Option String}
    {parameters : List String} {body : List Stmt} (goes : Goes (statements body)) :
    Goes (statement (.declare span mutability name (.function place own parameters body))) := by
  rw [statement]
  refine get_goes.bind fun c => ?_
  split
  · exact (define_goes _ _ _).bind fun symbol =>
      (makeFunction_yields none parameters place goes).goes.bind fun _ => store_goes symbol span
  · exact (makeFunction_yields _ parameters place goes).goes.bind fun _ =>
      (define_goes _ _ _).bind fun symbol => store_goes symbol span

theorem popped_goes {value : Compiling Unit} (yields : Yields value) : Goes (do value; emit .pop []) := by
  intro c recorded
  refine edits_bind (yields.goes c recorded) fun _ d run => emit_edits fun _ e last => ?_
  obtain ⟨e', last', other⟩ := (yields c recorded).last d run
  cases last.symm.trans last'
  exact other

theorem expressions_goes {es : List Expr} (each : ∀ e ∈ es, Goes (expression e)) : Goes (expressions es) := by
  induction es with
  | nil => exact pure_goes _
  | cons e rest ih =>
    rw [expressions]
    exact (each e List.mem_cons_self).bind fun _ => ih fun f present => each f (List.mem_cons_of_mem _ present)

theorem inOrder_goes {steps : List (String × Compiling Unit)} (each : ∀ step ∈ steps, Goes step.2) :
    Goes (inOrder steps) := by
  induction steps with
  | nil => exact pure_goes _
  | cons step rest ih =>
    have others := ih fun s present => each s (List.mem_cons_of_mem _ present)
    exact (each step List.mem_cons_self).bind fun _ => others

theorem unaryOp_other {operator : String} {op : OpCode} (known : unaryOpCode? operator = some op) : op ≠ .pop := by
  unfold unaryOpCode? at known
  split at known <;> cases known <;> simp

theorem binaryOp_other {operator : String} {op : OpCode} (known : binaryOpCode? operator = some op) : op ≠ .pop := by
  unfold binaryOpCode? at known
  split at known <;> cases known <;> simp

mutual

theorem statement_goes : ∀ s : Stmt, StatementGoes s
  | .expression span value => by
    have inner := expression_yields value
    refine ⟨popped_goes inner, fun place v same => ?_⟩
    cases same
    exact inner
  | .returns span value => by
    refine ⟨(expression_yields value).goes.bind fun _ => emit_goes _ (by simp), fun place v same => ?_⟩
    cases same
  | .assign span name value => by
    refine ⟨(expression_yields value).goes.bind fun _ => assignTo_goes name span, fun place v same => ?_⟩
    cases same
  | .declare span mutability name value => by
    refine ⟨?_, fun place v same => by cases same⟩
    have bound : Goes (do expression value; store (← define name mutability span) span) :=
      (expression_yields value).goes.bind fun _ => (define_goes _ _ _).bind fun symbol => store_goes symbol span
    cases value with
    | function place own parameters body => exact declareFunction_goes (statements_goes (body_goes body))
    | _ => exact bound

theorem body_goes : ∀ body : List Stmt, ∀ s ∈ body, StatementGoes s
  | [], _, present => by cases present
  | first :: rest, s, present => by
    have here := statement_goes first
    have others := body_goes rest
    rcases List.mem_cons.mp present with rfl | later
    · exact here
    · exact others s later

theorem expression_yields : ∀ e : Expr, Yields (expression e)
  | .integer span n => emitConstant_yields _ _
  | .float span x => emitConstant_yields _ _
  | .string span s => emitConstant_yields _ _
  | .boolean span true => emit_yields _ (by simp)
  | .boolean span false => emit_yields _ (by simp)
  | .identifier span name => .bind (resolve_goes name span) load_yields
  | .unary span operator right => by
    have inner := expression_yields right
    rw [expression]
    cases known : unaryOpCode? operator with
    | none => exact refuse_yields _
    | some op => exact .bind inner.goes fun _ => emit_yields _ (unaryOp_other known)
  | .binary span operator left right => by
    have first := (expression_yields left).goes
    have second := (expression_yields right).goes
    rw [expression]
    cases known : binaryOpCode? operator with
    | none => exact refuse_yields _
    | some op =>
      have last := emit_yields [] (binaryOp_other known)
      simp only
      split
      · exact .bind second fun _ => .bind first fun _ => last
      · exact .bind first fun _ => .bind second fun _ => last
  | .conditional span condition consequence none =>
    conditional_yields span (expression_yields condition).goes (branch_goes (statements_goes (body_goes consequence)))
      (emit_yields _ (by simp)) (branch_shifts (statements_shifts (body_shifts consequence)))
      (emit_shifts _ (by simp) (by simp))
  | .conditional span condition consequence (some alternative) =>
    conditional_yields span (expression_yields condition).goes (branch_goes (statements_goes (body_goes consequence)))
      (branch_yields (body_goes alternative)) (branch_shifts (statements_shifts (body_shifts consequence)))
      (branch_shifts (statements_shifts (body_shifts alternative)))
  | .array span elements =>
    .bind (checkLimit_goes _ _ _ _) fun _ => .bind (expressions_goes (each_goes elements)) fun _ => emit_yields _ (by simp)
  | .hash span pairs => by
    have each := pairs_go pairs
    rw [expression, pairSteps_eq]
    refine .bind (checkLimit_goes _ _ _ _) fun _ => .bind (inOrder_goes fun step present => ?_) fun _ => emit_yields _ (by simp)
    obtain ⟨p, member, rfl⟩ := List.mem_map.mp (List.mem_mergeSort.mp present)
    exact each p member
  | .index span target position =>
    .bind (expression_yields target).goes fun _ => .bind (expression_yields position).goes fun _ => emit_yields _ (by simp)
  | .function span own parameters body =>
    makeFunction_yields _ parameters span (statements_goes (body_goes body))
  | .call span callee arguments =>
    .bind (checkLimit_goes _ _ _ _) fun _ => .bind (expression_yields callee).goes fun _ =>
      .bind (expressions_goes (each_goes arguments)) fun _ => emit_yields _ (by simp)

theorem each_goes : ∀ es : List Expr, ∀ e ∈ es, Goes (expression e)
  | [], _, present => by cases present
  | first :: rest, e, present => by
    have here := (expression_yields first).goes
    have others := each_goes rest
    rcases List.mem_cons.mp present with rfl | later
    · exact here
    · exact others e later

theorem pairs_go : ∀ pairs : List (Expr × Expr), ∀ p ∈ pairs, Goes (pair p)
  | [], _, present => by cases present
  | (key, value) :: rest, p, present => by
    have first : Goes (pair (key, value)) := (expression_yields key).goes.bind fun _ => (expression_yields value).goes
    have others := pairs_go rest
    rcases List.mem_cons.mp present with rfl | later
    · exact first
    · exact others p later

end

end StackScript.Compiling
