import StackScript.Proofs.Compiler.Limits

-- A compiler panics in no other way than those that are known, whatever the program.
namespace StackScript.Compiling

variable {c d : Compiler}

open SymbolTable (SmallInside SmallAround)

-- A step that keeps the counts of names small, and changes only that of the innermost scope.
def Limited (m : Compiling Unit) : Prop := ∀ c, c.Ready → SmallInside c.symbols.counts →
  Keeps m c fun _ d => SmallInside d.symbols.counts ∧ d.symbols.counts.tail = c.symbols.counts.tail

theorem pure_limited : Limited (pure ()) := fun _ _ small => ⟨small, rfl⟩

theorem seq_limited {m n : Compiling Unit} {layout : Layout} (writes : Writes m layout) (one : Limited m)
    (two : Limited n) : Limited (m >>= fun _ => n) := by
  intro c ready small
  refine keeps_then (one c ready small) fun _ d run ⟨smaller, same⟩ => ?_
  refine keeps_mono (two d (writes c d ready run).2.1 smaller) fun _ e _ ⟨done, tail⟩ => ?_
  exact ⟨done, tail.trans same⟩

theorem emit_limited {op : OpCode} {operands : List Nat} (fits : Instruction.Fits operands op.operandWidths) :
    Limited (emit op operands) := by
  intro c _ small
  refine keeps_mono (emit_keeps fits) fun _ d _ same => ?_
  rw [same]
  exact ⟨small, rfl⟩

theorem limit_limited {value limit : Nat} {what : String} {span : Span} {m : Compiling Unit}
    (limited : value ≤ limit → Limited m) : Limited (do checkLimit value limit what span; m) := by
  intro c ready small
  refine keeps_then (checkLimit_keeps _ _ _ _) ?_
  rintro _ d _ ⟨within, rfl⟩
  exact limited within d ready small

theorem emitConstant_limited (v : Value) (span : Span) : Limited (emitConstant v span) := by
  intro c _ small
  refine keeps_then (addConstant_keeps v span) fun index d _ ⟨within, same⟩ => ?_
  refine keeps_mono (emit_keeps ⟨Nat.lt_succ_of_le within, trivial⟩) fun _ e _ same' => ?_
  rw [same', same]
  exact ⟨small, rfl⟩

theorem name_limited (x : String) (span : Span) : Limited (do load (← resolve x span)) := by
  intro c ready small
  refine keeps_then (resolve_keeps x span) fun symbol d run counts => ?_
  obtain ⟨-, middle, -, -, -, kept⟩ := resolve_extends ready run
  rw [← counts] at small ⊢
  refine keeps_mono (load_keeps (kept_indexed middle.symbols kept small.around fun _ => small)) fun _ e _ same => ?_
  rw [same]
  exact ⟨small, rfl⟩

theorem assignTo_limited (x : String) (span : Span) : Limited (assignTo x span) := by
  intro c ready small
  refine keeps_then (resolve_keeps x span) fun symbol d run counts => ?_
  obtain ⟨-, middle, -, -, -, kept⟩ := resolve_extends ready run
  rw [← counts] at small ⊢
  have indexed := kept_indexed middle.symbols kept small.around fun _ => small
  have stays (m : Compiling Unit) (keeps : Keeps m d fun _ e => e.symbols = d.symbols) :
      Keeps m d fun _ e => SmallInside e.symbols.counts ∧ e.symbols.counts.tail = d.symbols.counts.tail := by
    refine keeps_mono keeps fun _ e _ same => ?_
    rw [same]
    exact ⟨small, rfl⟩
  unfold Indexed at indexed
  cases mutability : symbol.mutability <;> cases storage : symbol.storage <;> simp only [storage] at indexed ⊢
  case assignable.global =>
    rcases indexed with fits | ⟨equal, full, nested⟩
    · exact stays _ (emit_keeps ⟨fits, trivial⟩)
    · unfold Keeps emit
      rw [equal, encode_one rfl (by decide)]
      exact .inr ⟨.inr rfl, full, nested⟩
  case assignable.frame => exact stays _ (emit_keeps ⟨indexed, trivial⟩)
  all_goals exact trivial

-- Behind a declaration the count of names is as if its limit had been checked before.
theorem bound_small {symbols : SymbolTable} {n : Nat} (around : SmallAround symbols.counts)
    (global : symbols.enclosing = [] → n ≤ 65535) (inside : symbols.enclosing ≠ [] → n ≤ 255) :
    SmallInside ((n + 1) :: symbols.enclosing.map Scope.slots) := by
  cases shape : symbols.enclosing with
  | nil => exact Nat.succ_le_succ (global shape)
  | cons s rest =>
    rw [SymbolTable.counts, shape] at around
    exact ⟨Nat.succ_le_succ (inside (by simp [shape])), around.2⟩

theorem bind_limited (x : String) (mutability : Mutability) (span : Span) :
    Limited (do store (← define x mutability span) span) := by
  intro c _ small
  refine keeps_then (define_keeps x mutability span) fun symbol d _ ⟨index, counts, storage⟩ => ?_
  refine keeps_mono (store_keeps symbol span) fun _ e _ ⟨same, global, inside⟩ => ?_
  rw [same, counts]
  refine ⟨bound_small small.around (fun outer => ?_) (fun nested => ?_), rfl⟩
  · rw [← index]
    exact global (storage.mpr outer)
  · rw [← index]
    exact inside fun equal => nested (storage.mp equal)

theorem patch_keeps {position target : Nat} {span : Span} {i : Instruction}
    (item : c.fragment.code.itemAt position = .instruction i) (jump : i.opcode = .jump ∨ i.opcode = .jumpUnless) :
    Keeps (patch position target span) c fun _ d => d.symbols = c.symbols := by
  unfold patch
  refine keeps_then (checkLimit_keeps _ _ _ _) ?_
  rintro _ d _ ⟨within, rfl⟩
  refine keeps_get ?_
  rw [Code.byte_of_itemAt item]
  have fits : Instruction.Fits [target] i.opcode.operandWidths := by
    rcases jump with equal | equal <;> rw [equal] <;> exact ⟨Nat.lt_succ_of_le within, trivial⟩
  obtain ⟨bytes, encoded⟩ := Instruction.encode_fits (i := ⟨i.opcode, [target]⟩) fits
  have check : (decide (i.opcode = .jump) || decide (i.opcode = .jumpUnless)) = true := by simpa using jump
  simp only [check, if_true, encoded]
  exact (rfl : d.symbols = d.symbols)

theorem keeps_position {f : Nat → Compiling Unit} {Q : Unit → Compiler → Prop}
    (next : Keeps (f c.fragment.code.size) c Q) : Keeps (position >>= f) c Q := next

theorem branch_limited {body : List Stmt} (limited : Limited (statements body)) : Limited (branch (statements body)) := by
  intro c ready small
  refine keeps_position ?_
  refine keeps_then (limited c ready small) fun _ d _ ⟨smaller, same⟩ => ?_
  refine keeps_get ?_
  split
  · exact ⟨smaller, same⟩
  · refine keeps_mono (emit_keeps trivial) fun _ e _ symbols => ?_
    rw [symbols]
    exact ⟨smaller, same⟩

-- The jumps are still where they were written when their targets are known.
theorem conditional_limited (span : Span) {condition no : Compiling Unit} {body : List Stmt} {first second third : Layout}
    (one : Writes condition first) (two : Writes (branch (statements body)) second) (three : Writes no third)
    (tests : Limited condition) (takes : Limited (branch (statements body))) (skips : Limited no) :
    Limited (conditional span condition (statements body) no) := by
  intro c ready small
  have fits (op : OpCode) (widths : op.operandWidths = [2]) : Instruction.Fits [placeholder] op.operandWidths := by
    rw [widths]
    exact ⟨by decide, trivial⟩
  refine keeps_then (tests c ready small) fun _ c1 tested ⟨small1, same1⟩ => ?_
  obtain ⟨-, r1, -⟩ := one c c1 ready tested
  refine keeps_position ?_
  refine keeps_then (emit_keeps (fits .jumpUnless rfl)) fun _ c2 skipped same2 => ?_
  obtain ⟨e2, r2, -, -, size2, -, lies2⟩ := emit_extends r1 skipped
  rw [← same2] at small1
  refine keeps_then (takes c2 r2 small1) fun _ c3 taken ⟨small3, same3⟩ => ?_
  obtain ⟨e3, r3, -⟩ := two c2 c3 r2 taken
  refine keeps_position ?_
  refine keeps_then (emit_keeps (fits .jump rfl)) fun _ c4 jumped same4 => ?_
  obtain ⟨e4, r4, -, -, size4, -, lies4⟩ := emit_extends r3 jumped
  refine keeps_position ?_
  have size3 := e3.size
  simp only [jump_width, jumpUnless_width] at size2 size4
  have skip := lies2 c4.fragment.code (((e3.trans e4).code).within (Nat.zero_le _) (Nat.le_refl _))
  refine keeps_then (patch_keeps skip (.inr rfl)) fun _ c5 patched same5 => ?_
  have p5 := patch_patched skip (by simp only [jumpUnless_width]; omega) patched
  rw [← same4, ← same5] at small3
  refine keeps_then (skips c5 (p5.ready r4) small3) fun _ c6 other ⟨small6, same6⟩ => ?_
  obtain ⟨e6, -, -⟩ := three c5 c6 (p5.ready r4) other
  refine keeps_position ?_
  have size5 := p5.size
  have leap := lies4 c6.fragment.code <|
    (e6.code.within (Nat.zero_le _) (Nat.le_of_eq size5.symm)).trans <|
      (p5.behind c4.fragment.code.size).within (by simp only [jumpUnless_width]; omega) (Nat.le_refl _)
  refine keeps_mono (patch_keeps leap (.inl rfl)) fun _ c7 _ same7 => ?_
  rw [same7]
  refine ⟨small6, ?_⟩
  rw [same6, same5, same4, same3, same2, same1]

theorem statements_limited {body : List Stmt} (writes : ∀ s ∈ body, StatementWrites s)
    (each : ∀ s ∈ body, Limited (statement s)) : Limited (statements body) := by
  induction body with
  | nil => exact pure_limited
  | cons s rest ih =>
    rw [statements]
    exact seq_limited (writes s List.mem_cons_self).1 (each s List.mem_cons_self)
      (ih (fun t present => writes t (List.mem_cons_of_mem _ present)) fun t present => each t (List.mem_cons_of_mem _ present))

theorem declareAll_keeps (span : Span) (names : List String) :
    Keeps (declareAll span names) c fun _ d =>
      d.symbols.counts = (c.symbols.innermost.slots + names.length) :: c.symbols.enclosing.map Scope.slots := by
  induction names generalizing c with
  | nil => exact (rfl : c.symbols.counts = _)
  | cons name rest ih =>
    refine keeps_then (define_keeps name .fixed span) fun symbol d _ ⟨_, counts, _⟩ => ?_
    refine keeps_mono ih fun _ e _ later => ?_
    obtain ⟨slots, enclosing⟩ := List.cons.inj counts
    rw [later, slots, enclosing, List.length_cons, Nat.add_assoc, Nat.add_comm 1]

theorem finishBody_keeps : Keeps finishBody c fun _ d => d.symbols = c.symbols := by
  unfold finishBody
  refine keeps_get ?_
  have closing (d : Compiler) (same : d.symbols = c.symbols) :
      Keeps (do if !(← get).fragment.endsWith .returnValue 0 then emit .returnNull []) d fun _ e => e.symbols = c.symbols := by
    refine keeps_get ?_
    split
    · exact keeps_mono (emit_keeps trivial) fun _ e _ later => later.trans same
    · exact same
  split
  · exact closing _ rfl
  · exact closing c rfl

theorem madeFrom_keeps {code : Code} {scope : Scope} {parameters : Nat} {span : Span}
    (few : scope.captures.size ≤ 255) (indexed : ∀ symbol ∈ scope.captures.toList, Indexed symbol c.symbols) :
    Keeps (madeFrom code scope parameters span) c fun _ d => d.symbols = c.symbols := by
  refine keeps_then (loadAll_keeps indexed) fun _ d _ same => ?_
  refine keeps_then (addConstant_keeps _ span) fun index e _ ⟨within, same'⟩ => ?_
  rw [same] at same'
  split
  · exact keeps_mono (emit_keeps ⟨Nat.lt_succ_of_le within, trivial⟩) fun _ f _ later => later.trans same'
  · exact keeps_mono (emit_keeps ⟨Nat.lt_succ_of_le within, Nat.lt_succ_of_le few, trivial⟩)
      fun _ f _ later => later.trans same'

theorem keeps_makeFunction {own : Option (String × Mutability)} {parameters : List String} {span : Span}
    {body : Compiling Unit} {Q : Unit → Compiler → Prop}
    (next : parameters.length ≤ 255 → Keeps (functionSteps parameters span body) (entered own c) Q) :
    Keeps (makeFunction own parameters span body) c Q := by
  refine keeps_then (checkLimit_keeps _ _ _ _) ?_
  rintro _ d _ ⟨few, rfl⟩
  cases own with
  | none => exact next few
  | some pair => exact next few

-- A function leaves the counts as they were. Its own name may be the global name that is one too many.
theorem makeFunction_keeps (own : Option (String × Mutability)) (parameters : List String) (span : Span)
    {body : List Stmt} (writes : ∀ s ∈ body, StatementWrites s) (limited : Limited (statements body)) (ready : c.Ready)
    (around : SmallAround c.symbols.counts) :
    Keeps (makeFunction own parameters span (statements body)) c fun _ d => d.symbols.counts = c.symbols.counts := by
  refine keeps_makeFunction fun few => ?_
  obtain ⟨enclosing, slots⟩ := SymbolTable.enterAs_shape c.symbols own
  have start : (entered own c).symbols = c.symbols.enterAs own := rfl
  refine keeps_then (declareAll_keeps span parameters) fun _ d declared counts => ?_
  obtain ⟨grown, inside, fragment, -⟩ := declareAll_ok (entered_ready own ready.symbols) declared
  rw [start, enclosing, slots, Nat.zero_add, List.map_cons] at counts
  have small : SmallInside d.symbols.counts := by
    rw [counts]
    exact ⟨by omega, around⟩
  refine keeps_then (limited d inside small) ?_
  rintro _ e written ⟨_, tail⟩
  refine keeps_then finishBody_keeps fun _ f finished symbols => ?_
  obtain ⟨further, done, -⟩ := finish_writes writes d f inside fragment (bind_ok.mpr ⟨(), e, written, finished⟩)
  have left : Keeps leave f fun pair g => leave f = .ok pair g := by
    unfold Keeps
    cases run : leave f with
    | ok => exact rfl
    | error cause =>
      rw [leave] at run
      split at run <;> cases run
  refine keeps_then left ?_
  rintro ⟨code, scope⟩ g run -
  have closed := closed_of ready (grown.trans further) done run
  have same : g.symbols.counts = c.symbols.counts := by
    have rest : f.symbols.counts.tail = c.symbols.counts := by
      rw [symbols, tail, counts]
      rfl
    rw [← rest, SymbolTable.counts, SymbolTable.counts, closed.shape]
    rfl
  refine keeps_then (checkLimit_keeps _ _ _ _) ?_
  rintro _ _ _ ⟨-, rfl⟩
  refine keeps_then (checkLimit_keeps _ _ _ _) ?_
  rintro _ g _ ⟨captures, rfl⟩
  rw [← same] at around
  refine keeps_mono (madeFrom_keeps captures fun symbol present => ?_) fun _ h _ later => ?_
  · refine kept_indexed closed.ready.symbols (captures_kept closed.inner symbol present) around fun global => ?_
    exact absurd global (closed.inner.1.taken symbol (Array.mem_toList_iff.mp present)).2.1
  · rw [later, same]

theorem function_limited (own : Option (String × Mutability)) (parameters : List String) (span : Span)
    {body : List Stmt} (writes : ∀ s ∈ body, StatementWrites s) (limited : Limited (statements body)) :
    Limited (makeFunction own parameters span (statements body)) := by
  intro c ready small
  refine keeps_mono (makeFunction_keeps own parameters span writes limited ready small.around) fun _ d _ same => ?_
  rw [same]
  exact ⟨small, rfl⟩

theorem declareFunction_limited {span place : Span} {mutability : Mutability} {name : String} {own : Option String}
    {parameters : List String} {body : List Stmt} (writes : ∀ s ∈ body, StatementWrites s)
    (limited : Limited (statements body)) :
    Limited (statement (.declare span mutability name (.function place own parameters body))) := by
  intro c ready small
  rw [statement]
  refine keeps_get ?_
  split
  · rename_i early
    have outer : c.symbols.enclosing = [] := by
      simp only [Bool.and_eq_true] at early
      simpa [SymbolTable.isGlobal] using early.2
    refine keeps_then (define_keeps name mutability span) ?_
    rintro symbol d run ⟨index, counts, storage⟩
    obtain ⟨grown, middle, -⟩ := define_extends ready run
    have alone : d.symbols.counts = [c.symbols.innermost.slots + 1] := by
      rw [counts, outer]
      rfl
    have around : SmallAround d.symbols.counts := by
      rw [SymbolTable.counts, outer] at small
      rw [alone]
      exact Nat.succ_le_succ small
    refine keeps_then (makeFunction_keeps none parameters place writes limited middle around) fun _ e _ same => ?_
    refine keeps_mono (store_keeps symbol span) ?_
    rintro _ f _ ⟨symbols, global, _⟩
    have within := global (storage.mpr outer)
    rw [symbols, same, alone]
    refine ⟨?_, by rw [SymbolTable.counts, outer]; rfl⟩
    show c.symbols.innermost.slots + 1 ≤ 65536
    omega
  · exact seq_limited (function_writes (some (name, mutability)) parameters place writes)
      (function_limited _ _ _ writes limited) (bind_limited name mutability span) c ready small

theorem expressions_limited {es : List Expr} (each : ∀ e ∈ es, Limited (expression e)) : Limited (expressions es) := by
  induction es with
  | nil => exact pure_limited
  | cons e rest ih =>
    rw [expressions]
    exact seq_limited (expression_writes e) (each e List.mem_cons_self)
      (ih fun f present => each f (List.mem_cons_of_mem _ present))

theorem inOrder_limited {pairs : List (Expr × Expr)} (writes : ∀ p ∈ pairs, Writes (pair p) (pairLayout p))
    (each : ∀ p ∈ pairs, Limited (pair p)) : Limited (inOrder (pairs.map fun p => (p.1.text, pair p))) := by
  induction pairs with
  | nil => exact pure_limited
  | cons p rest ih =>
    exact seq_limited (writes p List.mem_cons_self) (each p List.mem_cons_self)
      (ih (fun q present => writes q (List.mem_cons_of_mem _ present)) fun q present => each q (List.mem_cons_of_mem _ present))

theorem unary_fits {operator : String} {op : OpCode} (known : unaryOpCode? operator = some op) :
    Instruction.Fits [] op.operandWidths := by
  unfold unaryOpCode? at known
  split at known <;> cases known <;> trivial

theorem binary_fits {operator : String} {op : OpCode} (known : binaryOpCode? operator = some op) :
    Instruction.Fits [] op.operandWidths := by
  unfold binaryOpCode? at known
  split at known <;> cases known <;> trivial

mutual

theorem statement_limited : ∀ s : Stmt, Limited (statement s)
  | .expression span value => seq_limited (expression_writes value) (expression_limited value) (emit_limited trivial)
  | .returns span value => seq_limited (expression_writes value) (expression_limited value) (emit_limited trivial)
  | .assign span name value =>
    seq_limited (expression_writes value) (expression_limited value) (assignTo_limited name span)
  | .declare span mutability name value => by
    have bound := seq_limited (expression_writes value) (expression_limited value) (bind_limited name mutability span)
    cases value with
    | function place own parameters body =>
      exact declareFunction_limited (body_writes body) (statements_limited (body_writes body) (body_limited body))
    | _ => exact bound

theorem body_limited : ∀ body : List Stmt, ∀ s ∈ body, Limited (statement s)
  | [], _, present => by cases present
  | first :: rest, s, present => by
    have here := statement_limited first
    have others := body_limited rest
    rcases List.mem_cons.mp present with rfl | later
    · exact here
    · exact others s later

theorem expression_limited : ∀ e : Expr, Limited (expression e)
  | .integer span n => emitConstant_limited _ _
  | .float span x => emitConstant_limited _ _
  | .string span s => emitConstant_limited _ _
  | .boolean span true => emit_limited trivial
  | .boolean span false => emit_limited trivial
  | .identifier span name => name_limited name span
  | .unary span operator right => by
    have inner := expression_limited right
    rw [expression]
    cases known : unaryOpCode? operator with
    | none => exact fun c _ _ => trivial
    | some op => exact seq_limited (expression_writes right) inner (emit_limited (unary_fits known))
  | .binary span operator left right => by
    have first := expression_limited left
    have second := expression_limited right
    rw [expression]
    cases known : binaryOpCode? operator with
    | none => exact fun c _ _ => trivial
    | some op =>
      have last := emit_limited (binary_fits known)
      have ordered := seq_limited (expression_writes left) first (seq_limited (expression_writes right) second last)
      have swapped := seq_limited (expression_writes right) second (seq_limited (expression_writes left) first last)
      intro c ready small
      simp only
      split
      · exact swapped c ready small
      · exact ordered c ready small
  | .conditional span condition consequence none =>
    conditional_limited span (expression_writes condition) (branch_writes (body_writes consequence)) (emit_writes _ _)
      (expression_limited condition)
      (branch_limited (statements_limited (body_writes consequence) (body_limited consequence))) (emit_limited trivial)
  | .conditional span condition consequence (some alternative) =>
    conditional_limited span (expression_writes condition) (branch_writes (body_writes consequence))
      (branch_writes (body_writes alternative)) (expression_limited condition)
      (branch_limited (statements_limited (body_writes consequence) (body_limited consequence)))
      (branch_limited (statements_limited (body_writes alternative) (body_limited alternative)))
  | .array span elements =>
    limit_limited fun within => seq_limited (expressions_writes (each_writes elements))
      (expressions_limited (each_limited elements)) (emit_limited ⟨Nat.lt_succ_of_le within, trivial⟩)
  | .hash span pairs => by
    have each := pairs_limited pairs
    rw [expression, pairSteps_eq, sorted_map]
    refine limit_limited fun within => ?_
    have writes : ∀ p ∈ pairs.mergeSort byText, Writes (pair p) (pairLayout p) :=
      fun p present => pairs_write pairs p (List.mem_mergeSort.mp present)
    exact seq_limited (inOrder_writes writes)
      (inOrder_limited writes fun p present => each p (List.mem_mergeSort.mp present))
      (emit_limited ⟨Nat.lt_succ_of_le within, trivial⟩)
  | .index span target position =>
    seq_limited (expression_writes target) (expression_limited target)
      (seq_limited (expression_writes position) (expression_limited position) (emit_limited trivial))
  | .function span own parameters body =>
    function_limited _ _ _ (body_writes body) (statements_limited (body_writes body) (body_limited body))
  | .call span callee arguments =>
    limit_limited fun within => seq_limited (expression_writes callee) (expression_limited callee)
      (seq_limited (expressions_writes (each_writes arguments)) (expressions_limited (each_limited arguments))
        (emit_limited ⟨Nat.lt_succ_of_le within, trivial⟩))

theorem each_limited : ∀ es : List Expr, ∀ e ∈ es, Limited (expression e)
  | [], _, present => by cases present
  | first :: rest, e, present => by
    have here := expression_limited first
    have others := each_limited rest
    rcases List.mem_cons.mp present with rfl | later
    · exact here
    · exact others e later

theorem pairs_limited : ∀ pairs : List (Expr × Expr), ∀ p ∈ pairs, Limited (pair p)
  | [], _, present => by cases present
  | (key, value) :: rest, p, present => by
    have first := seq_limited (expression_writes key) (expression_limited key) (expression_limited value)
    have others := pairs_limited rest
    rcases List.mem_cons.mp present with rfl | later
    · exact first
    · exact others p later

end

end StackScript.Compiling
