import StackScript.Proofs.Compiler.Blocks

-- The layouts of blocks. What a block gives is decided by its last statement, which is also its last instruction.
namespace StackScript.Compiling

theorem statements_snoc_ok {body : List Stmt} {s : Stmt} {c e : Compiler} {a : Unit} :
    statements (body ++ [s]) c = .ok a e ↔ ∃ d, statements body c = .ok () d ∧ statement s d = .ok () e := by
  induction body generalizing c with
  | nil =>
    simp only [List.nil_append, statements, bind_ok, pure_ok]
    constructor
    · rintro ⟨⟨⟩, d, here, -, rfl⟩
      exact ⟨c, ⟨trivial, rfl⟩, here⟩
    · rintro ⟨d, ⟨-, rfl⟩, here⟩
      exact ⟨(), e, here, trivial, rfl⟩
  | cons first rest ih =>
    rw [List.cons_append, statements, bind_ok, statements]
    simp only [bind_ok, ih]
    grind

theorem statements_writes {body : List Stmt} (each : ∀ s ∈ body, Writes (statement s) (Layout.statement s)) :
    Writes (statements body) (Layout.statements body) := by
  induction body with
  | nil => exact nothing_writes
  | cons s rest ih =>
    rw [statements, Layout.statements]
    exact seq_writes (each s List.mem_cons_self) (ih fun t present => each t (List.mem_cons_of_mem _ present))

theorem emit_last {op : OpCode} {operands : List Nat} {c d : Compiler} (emitted : emit op operands c = .ok () d) :
    ∃ position, d.fragment.last = some ⟨op, position⟩ := by
  obtain ⟨bytes, -, rfl⟩ := emit_ok.mp emitted
  exact ⟨_, rfl⟩

theorem store_last {symbol : Symbol} {span : Span} {c d : Compiler} (stored : store symbol span c = .ok () d) :
    ∃ last, d.fragment.last = some last ∧ (last.opcode = .setGlobal ∨ last.opcode = .setLocal) := by
  rw [store] at stored
  split at stored
  · obtain ⟨⟨⟩, b, -, emitted⟩ := bind_ok.mp stored
    obtain ⟨position, last⟩ := emit_last emitted
    exact ⟨_, last, .inl rfl⟩
  · obtain ⟨⟨⟩, b, -, emitted⟩ := bind_ok.mp stored
    obtain ⟨position, last⟩ := emit_last emitted
    exact ⟨_, last, .inr rfl⟩

theorem declaration_last {span : Span} {mutability : Mutability} {name : String} {value : Expr} {c d : Compiler} {a : Unit}
    (run : statement (.declare span mutability name value) c = .ok a d) :
    ∃ last, d.fragment.last = some last ∧ (last.opcode = .setGlobal ∨ last.opcode = .setLocal) := by
  cases value
  case function place own parameters body =>
    rw [statement] at run
    obtain ⟨b, b', -, rest⟩ := bind_ok.mp run
    split at rest
    · obtain ⟨symbol, b'', -, rest⟩ := bind_ok.mp rest
      obtain ⟨⟨⟩, b''', -, stored⟩ := bind_ok.mp rest
      exact store_last stored
    · obtain ⟨⟨⟩, b'', -, rest⟩ := bind_ok.mp rest
      obtain ⟨symbol, b''', -, stored⟩ := bind_ok.mp rest
      exact store_last stored
  all_goals
    rw [statement] at run
    · obtain ⟨⟨⟩, b, -, rest⟩ := bind_ok.mp run
      obtain ⟨symbol, b', -, stored⟩ := bind_ok.mp rest
      exact store_last stored
    · intros; simp_all

-- The opcode of a statement's last instruction tells what kind of statement it is.
theorem statement_last {s : Stmt} {c d : Compiler} {a : Unit} (run : statement s c = .ok a d) :
    ∃ last, d.fragment.last = some last ∧
      (last.opcode = .pop ↔ ∃ span value, s = .expression span value) ∧
      (last.opcode = .returnValue ↔ ∃ span value, s = .returns span value) := by
  cases s with
  | expression span value =>
    rw [statement] at run
    obtain ⟨⟨⟩, b, -, emitted⟩ := bind_ok.mp run
    obtain ⟨position, last⟩ := emit_last emitted
    exact ⟨_, last, by simp, by simp⟩
  | returns span value =>
    rw [statement] at run
    obtain ⟨⟨⟩, b, -, emitted⟩ := bind_ok.mp run
    obtain ⟨position, last⟩ := emit_last emitted
    exact ⟨_, last, by simp, by simp⟩
  | assign span name value =>
    rw [statement] at run
    obtain ⟨⟨⟩, b, -, assigned⟩ := bind_ok.mp run
    obtain ⟨symbol, b', -, written⟩ := bind_ok.mp assigned
    cases mutability : symbol.mutability <;> cases storage : symbol.storage <;>
      simp only [mutability, storage] at written
    case assignable.global | assignable.frame =>
      obtain ⟨position, last⟩ := emit_last written
      exact ⟨_, last, by simp, by simp⟩
    all_goals cases written
  | declare span mutability name value =>
    obtain ⟨last, present, opcode | opcode⟩ := declaration_last run
    · exact ⟨last, present, by simp [opcode], by simp [opcode]⟩
    · exact ⟨last, present, by simp [opcode], by simp [opcode]⟩

theorem layout_branch_snoc {body : List Stmt} {s : Stmt} {k : Finished} {p q : Point}
    (lies : ((Layout.statements body).seq (Layout.branch [s])) k p q) : Layout.branch (body ++ [s]) k p q := by
  obtain ⟨m, front, last⟩ := lies
  induction body generalizing p with
  | nil =>
    cases front
    exact last
  | cons first rest ih =>
    obtain ⟨n, here, further⟩ := front
    rw [List.cons_append, Layout.branch]
    · exact ⟨n, here, ih further⟩
    · intro span value equal empty
      simp at empty

theorem layout_finish_snoc {body : List Stmt} {s : Stmt} {k : Finished} {p q : Point}
    (lies : ((Layout.statements body).seq (Layout.finish [s])) k p q) : Layout.finish (body ++ [s]) k p q := by
  obtain ⟨m, front, last⟩ := lies
  induction body generalizing p with
  | nil =>
    cases front
    exact last
  | cons first rest ih =>
    obtain ⟨n, here, further⟩ := front
    rw [List.cons_append, Layout.finish]
    · exact ⟨n, here, ih further⟩
    · intro span value equal empty
      simp at empty
    · intro span value equal empty
      simp at empty

theorem layout_branch_other {s : Stmt} (other : ¬ ∃ span v, s = .expression span v) :
    Layout.branch [s] = (Layout.statement s).seq (.instruction ⟨.pushNull, []⟩) := by
  rw [Layout.branch, Layout.branch]
  intro span v equal
  exact absurd ⟨span, v, equal⟩ other

theorem layout_finish_other {s : Stmt} (value : ¬ ∃ span v, s = .expression span v)
    (returned : ¬ ∃ span v, s = .returns span v) :
    Layout.finish [s] = (Layout.statement s).seq (.instruction ⟨.returnNull, []⟩) := by
  rw [Layout.finish, Layout.finish]
  · intro span v equal
    exact absurd ⟨span, v, equal⟩ value
  · intro span v equal
    exact absurd ⟨span, v, equal⟩ returned

-- What is known of a statement once it is known of the trees inside.
def StatementWrites (s : Stmt) : Prop :=
  Writes (statement s) (Layout.statement s) ∧
    ∀ span value, s = .expression span value → Writes (expression value) (Layout.expression value)

theorem endsWith_ok {op : OpCode} {since : Nat} {f : Fragment} {last : Emitted} (present : f.last = some last) :
    f.endsWith op since = (last.opcode = op && since ≤ last.position) := by
  simp [Fragment.endsWith, present]

theorem dropLast_append (f : Fragment) (op : OpCode) (bytes : List UInt8) :
    (f.append op bytes).dropLast = ⟨f.code, f.last, none⟩ := by
  simp only [Fragment.append, Fragment.dropLast]
  congr
  rw [Code.append_eq]
  simp

theorem branch_writes {body : List Stmt} (each : ∀ s ∈ body, StatementWrites s) :
    Writes (branch (statements body)) (Layout.branch body) := by
  intro c e ready run
  rw [branch] at run
  obtain ⟨start, c', here, run⟩ := bind_ok.mp run
  obtain ⟨rfl, rfl⟩ := position_ok.mp here
  obtain ⟨⟨⟩, d, written, run⟩ := bind_ok.mp run
  obtain ⟨d', d'', got, closed⟩ := bind_ok.mp run
  obtain ⟨rfl, rfl⟩ := get_ok.mp got
  rcases List.eq_nil_or_concat body with rfl | ⟨front, s, rfl⟩
  · -- Nothing was written, and what is remembered lies before the start.
    obtain ⟨-, rfl⟩ := pure_ok.mp written
    have open_ : d''.fragment.endsWith .pop d''.fragment.code.size = false := by
      cases last : d''.fragment.last with
      | none => simp [Fragment.endsWith, last]
      | some l =>
        have before := ready.fragment l last
        rw [endsWith_ok last]
        simp
        omega
    rw [open_] at closed
    exact emit_writes _ _ _ _ ready closed
  · rw [List.concat_eq_append] at written each ⊢
    obtain ⟨b, fronted, last⟩ := statements_snoc_ok.mp written
    have fronts := statements_writes fun t present => (each t (List.mem_append_left _ present)).1
    have mine := each s (by simp)
    by_cases value : ∃ span v, s = .expression span v
    · -- The value of a last expression is left, without the instruction that would drop it.
      obtain ⟨span, v, rfl⟩ := value
      rw [statement] at last
      obtain ⟨⟨⟩, b', computed, emitted⟩ := bind_ok.mp last
      obtain ⟨grown, done, lies⟩ := seq_writes fronts (mine.2 span v rfl) c' b' ready
        (bind_ok.mpr ⟨(), b, fronted, computed⟩)
      obtain ⟨bytes, -, rfl⟩ := emit_ok.mp emitted
      have size := grown.size
      have ends : (b'.fragment.append .pop bytes).endsWith .pop c'.fragment.code.size = true := by
        rw [endsWith_ok rfl]
        simp
        omega
      simp only [ends, if_true] at closed
      cases modify_ok.mp closed
      rw [dropLast_append]
      have same : b'.Extends { b' with fragment := ⟨b'.fragment.code, b'.fragment.last, none⟩ } :=
        ⟨⟨List.prefix_rfl, .refl _, rfl⟩, Nat.le_refl _, .refl _ _ _⟩
      refine ⟨grown.trans same, ⟨done.symbols, done.fragment⟩, fun k completes => layout_branch_snoc ?_⟩
      rw [Layout.branch]
      exact lies k (completes.before same)
    · obtain ⟨l, remembered, popped, -⟩ := statement_last last
      have ends : d''.fragment.endsWith .pop c'.fragment.code.size = false := by
        rw [endsWith_ok remembered]
        have other : l.opcode ≠ .pop := fun equal => value (popped.mp equal)
        simp [other]
      rw [ends, if_neg Bool.false_ne_true] at closed
      obtain ⟨grown, done, lies⟩ := seq_writes fronts (seq_writes mine.1 (emit_writes .pushNull [])) c' e ready
        (bind_ok.mpr ⟨(), b, fronted, bind_ok.mpr ⟨(), d'', last, closed⟩⟩)
      refine ⟨grown, done, fun k completes => layout_branch_snoc ?_⟩
      rw [layout_branch_other value]
      exact lies k completes

-- Writing another instruction of one byte over the one just written is writing it in its place.
theorem replaceLast_append (f : Fragment) (op other : OpCode) (b : UInt8) :
    (f.append other [b]).replaceLast op = f.append op [op.byte] := by
  simp only [Fragment.append, Fragment.replaceLast]
  congr
  rw [Code.append_eq, Code.append_eq]
  apply Array.ext
  · simp
  · intro i low high
    simp
    grind

theorem finishBody_ok {c d : Compiler} {a : Unit} (run : finishBody c = .ok a d) :
    (∃ l, c.fragment.last = some l ∧ l.opcode = .pop ∧
      d = { c with fragment := c.fragment.replaceLast .returnValue }) ∨
    (∃ l, c.fragment.last = some l ∧ l.opcode = .returnValue ∧ d = c) ∨
    ((∀ l, c.fragment.last = some l → l.opcode ≠ .pop ∧ l.opcode ≠ .returnValue) ∧
      emit .returnNull [] c = .ok () d) := by
  rw [finishBody, bind_ok] at run
  obtain ⟨_, _, got, run⟩ := run
  obtain ⟨rfl, rfl⟩ := get_ok.mp got
  rename_i e
  cases last : e.fragment.last with
  | none =>
    have open_ (op : OpCode) : e.fragment.endsWith op 0 = false := by simp [Fragment.endsWith, last]
    simp only [open_, Bool.false_eq_true, if_false, bind_ok, get_ok] at run
    obtain ⟨_, _, ⟨rfl, rfl⟩, run⟩ := run
    simp only [open_, Bool.not_false, if_true] at run
    exact .inr (.inr ⟨by simp, run⟩)
  | some l =>
    have ends (op : OpCode) : e.fragment.endsWith op 0 = decide (l.opcode = op) := by
      rw [endsWith_ok last]
      simp
    by_cases popped : l.opcode = .pop
    · refine .inl ⟨l, rfl, popped, ?_⟩
      have replaced : (e.fragment.replaceLast .returnValue).endsWith .returnValue 0 = true := by
        simp [Fragment.replaceLast, last, Fragment.endsWith]
      simp only [ends, popped, decide_true, if_true, bind_ok, modify_ok, get_ok] at run
      obtain ⟨_, _, rfl, _, _, ⟨rfl, rfl⟩, run⟩ := run
      simp only [replaced, Bool.not_true, Bool.false_eq_true, if_false] at run
      exact (pure_ok.mp run).2
    · simp only [ends, popped, decide_false, Bool.false_eq_true, if_false, bind_ok, get_ok] at run
      obtain ⟨_, _, ⟨rfl, rfl⟩, run⟩ := run
      by_cases returned : l.opcode = .returnValue
      · refine .inr (.inl ⟨l, rfl, returned, ?_⟩)
        simp only [ends, returned, decide_true, Bool.not_true, Bool.false_eq_true, if_false] at run
        exact (pure_ok.mp run).2
      · refine .inr (.inr ⟨?_, ?_⟩)
        · intro l' same
          cases same
          exact ⟨popped, returned⟩
        · simpa [ends, returned] using run

end StackScript.Compiling
