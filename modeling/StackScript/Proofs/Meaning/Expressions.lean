import StackScript.Proofs.Meaning.Functions

-- The code of each kind of expression comes to the value of the expression, if the codes of its parts do.
namespace StackScript

namespace Activation

variable {a : Activation} {first second : Layout} {events others : List Event} {x y : Doing Datum}

theorem push_computes {i : Instruction} {d : Datum} (sound : d.Sound a.Known)
    (run : Running.execute i.opcode (i.operands[0]?.getD 0) (i.operands[1]?.getD 0) =
      (do Running.push d.value; return Signal.next : Running Signal)) :
    a.Computes (Layout.instruction i) [] (pure d) := by
  intro p q n s operands m lies holds
  obtain ⟨item, rfl⟩ := lies
  have pushed := holds.leads_more (v := d.value) (holds.reflects.moved (p.position + i.opcode.width))
    ((holds.step item).trans (by rw [run]))
  exact pushed.mono (fun o held => ⟨held, sound⟩) fun _ _ spilled => spilled

theorem constant_computes {d : Datum} (sound : d.Sound a.Known) :
    a.Computes (Layout.constant d.value) [.literal] (Doing.constant d) := by
  intro p q n s operands m lies holds
  obtain ⟨here, item, rfl⟩ := lies
  have counted := holds.skip holds.reflects.counted rfl
  have loaded := counted.leads_constant item rfl here (counted.reflects.moved _)
  exact loaded.mono (fun o held => ⟨held, sound⟩) fun _ _ spilled => spilled

theorem name_computes (name : String) : a.Computes (Layout.name name) [.mention name] (Doing.read name) := by
  intro p q n s operands m lies holds
  obtain ⟨symbol, table, found, within, item, rfl⟩ := lies
  obtain ⟨-, named, place⟩ := SymbolTable.resolve_reflects holds.reflects.symbols found
  have resolved := holds.reflects.resolved found
  have held := holds.skip resolved rfl
  have gives := place_gives held.agrees (mention_settled n name) place named within
  have read := held.leads_read item rfl (resolved.moved _) within gives
  exact read.mono (fun o arrived => ⟨arrived, Situation.lookup_sound holds.sound name⟩) fun _ _ spilled => spilled

theorem unary_computes (one : a.Computes first events x) {operator : String} {op : OpCode}
    (known : Compiling.unaryOpCode? operator = some op) : a.Computes (first.seq (Layout.instruction ⟨op, []⟩)) events
      (do let d ← x; Doing.ofExcept (Doing.unary operator d)) := by
  intro p q n s operands m lies holds
  obtain ⟨e, left, item, rfl⟩ := lies
  refine (one p e n s operands m left holds).bind fun d t o _ arrived => ?_
  exact arrived.1.follows_unary known item rfl (arrived.1.reflects.moved _) a.Returning

theorem binary_computes (one : a.Computes first events x) (two : a.Computes second others y) {operator : String}
    {op : OpCode} (known : Compiling.binaryOpCode? operator = some op) :
    a.Computes (first.seq (second.seq (Layout.instruction ⟨op, []⟩))) (events ++ others)
      (do let d ← x; let e ← y; Doing.ofExcept (Datum.binary op d e)) := by
  intro p q n s operands m lies holds
  obtain ⟨e, left, g, right, item, rfl⟩ := lies
  rw [Names.after_append]
  refine (one p e n s operands m left holds).bind fun d t o _ arrived => ?_
  refine (two e g _ t _ o right arrived.1).bind fun d' u r _ arrived' => ?_
  exact arrived'.1.follows_binary known item rfl (arrived'.1.reflects.moved _) a.Returning

theorem index_computes (one : a.Computes first events x) (two : a.Computes second others y) :
    a.Computes (first.seq (second.seq (Layout.instruction ⟨.index, []⟩))) (events ++ others)
      (do let d ← x; let e ← y; Doing.ofExcept (Datum.index d e)) := by
  intro p q n s operands m lies holds
  obtain ⟨e, left, g, right, item, rfl⟩ := lies
  rw [Names.after_append]
  refine (one p e n s operands m left holds).bind fun d t o _ arrived => ?_
  refine (two e g _ t _ o right arrived.1).bind fun d' u r _ arrived' => ?_
  exact arrived'.1.follows_index arrived.2 item rfl (arrived'.1.reflects.moved _) a.Returning

-- The branch that is not taken is passed over, before or behind the one that is.
theorem choice_computes {condition yes no : Layout} {tested taken other : List Event} {z : Doing Datum}
    (test : a.Computes condition tested x) (one : a.Computes yes taken y) (two : a.Computes no other z)
    (tells : yes.Tells taken) (tells' : no.Tells other) :
    a.Computes (Layout.choice condition yes no) (tested ++ (taken ++ other))
      (do
        let d ← x
        if d.value.truthy then
          let e ← y
          Doing.skip other
          return e
        else
          Doing.skip taken
          z) := by
  intro p q n s operands m lies holds
  obtain ⟨b, c, e, g, conditional, ⟨skip, rfl⟩, branch, ⟨leap, rfl⟩, alternative⟩ := lies
  rw [Names.after_append, Names.after_append]
  refine (test p b n s operands m conditional holds).bind fun d t o _ arrived => ?_
  have after := tells _ _ _ _ branch (arrived.1.reflects.moved _)
  have behind := tells' _ _ _ _ alternative (after.moved _)
  refine .after_leads (arrived.1.leads_test skip) fun r held => ?_
  cases truth : d.value.truthy with
  | true =>
    simp only [truth, if_true] at held ⊢
    refine (one _ _ _ t _ r branch held).bind fun d' u r' _ arrived' => ?_
    have jumped := arrived'.1.leads_jump (q := { e with position := q.position }) leap (arrived'.1.reflects.moved _)
    exact jumped.mono (fun w held' => ⟨held'.skip behind rfl, arrived'.2⟩) fun _ _ fault => fault
  | false =>
    simp only [truth, Bool.false_eq_true, if_false] at held ⊢
    exact two _ q _ _ _ r alternative (held.skip (after.moved _) rfl)

theorem lone_computes {condition yes : Layout} {tested taken : List Event} (test : a.Computes condition tested x)
    (one : a.Computes yes taken y) (tells : yes.Tells taken) :
    a.Computes (Layout.choice condition yes (Layout.instruction ⟨.pushNull, []⟩)) (tested ++ taken)
      (do
        let d ← x
        if d.value.truthy then y
        else
          Doing.skip taken
          return .null) := by
  have all := choice_computes test one (push_computes (i := ⟨.pushNull, []⟩) (d := .null) (.simple rfl rfl) rfl) tells
    (Layout.instruction_tells _)
  rw [List.append_nil] at all
  have same : (do let e ← y; Doing.skip []; return e) = y := by
    funext s
    simp only [bind, EStateM.bind]
    cases y s <;> rfl
  rw [same] at all
  exact all

def ComputesAll (a : Activation) (layout : Layout) (events : List Event) (count : Nat) (steps : Doing (List Datum)) : Prop :=
  ∀ p q n s operands m, layout a.finished p q → a.Holds p n s operands m →
    Follows m (steps s) (fun ds t o => a.Holds q (n.after events) t (operands ++ ds.map Datum.value) o ∧
      (∀ d ∈ ds, d.Sound a.Known) ∧ ds.length = count) a.Returning

theorem none_computes : a.ComputesAll Layout.nothing [] 0 (return []) := by
  intro p q n s operands m lies holds
  cases lies
  have held : a.Holds p n s (operands ++ ([] : List Datum).map Datum.value) m := by
    rw [List.map_nil, List.append_nil]
    exact holds
  exact .here ⟨held, List.forall_mem_nil _, rfl⟩

theorem more_computes {count : Nat} {ys : Doing (List Datum)} (one : a.Computes first events x)
    (rest : a.ComputesAll second others count ys) :
    a.ComputesAll (first.seq second) (events ++ others) (count + 1) (do return (← x) :: (← ys)) := by
  intro p q n s operands m lies holds
  obtain ⟨e, left, right⟩ := lies
  rw [Names.after_append]
  refine (one p e n s operands m left holds).bind fun d t o _ arrived => ?_
  refine (rest e q _ t _ o right arrived.1).bind fun ds u r _ arrived' => ?_
  obtain ⟨held, sound, length⟩ := arrived'
  rw [List.append_assoc] at held
  exact .here ⟨held, List.forall_mem_cons.mpr ⟨arrived.2, sound⟩, congrArg (· + 1) length⟩

theorem array_computes {count : Nat} {xs : Doing (List Datum)} (each : a.ComputesAll first events count xs) :
    a.Computes (first.seq (Layout.instruction ⟨.array, [count]⟩)) events (do return .array (← xs)) := by
  intro p q n s operands m lies holds
  obtain ⟨e, left, item, rfl⟩ := lies
  refine (each p e n s operands m left holds).bind fun ds t o _ arrived => ?_
  obtain ⟨held, sound, rfl⟩ := arrived
  have made := held.leads_array item rfl (held.reflects.moved _)
  exact made.mono (fun r arrived => ⟨arrived, .array sound⟩) fun _ _ spilled => spilled

theorem call_computes {count : Nat} {xs : Doing (List Datum)} {call : Datum → List Datum → Doing Datum}
    (calls : a.Calls call) (callee : a.Computes first events x) (each : a.ComputesAll second others count xs) :
    a.Computes (first.seq (second.seq (Layout.instruction ⟨.call, [count]⟩))) (events ++ others)
      (do let d ← x; let args ← xs; call d args) := by
  intro p q n s operands m lies holds
  obtain ⟨e, left, g, right, item, rfl⟩ := lies
  rw [Names.after_append]
  refine (callee p e n s operands m left holds).bind fun d t o _ arrived => ?_
  refine (each e g _ t _ o right arrived.1).bind fun args u r _ arrived' => ?_
  obtain ⟨held, sound, rfl⟩ := arrived'
  rw [List.append_assoc] at held
  exact calls _ _ _ _ _ d args r held arrived.2 sound (held.reflects.moved _) item rfl

def ComputesPairs (a : Activation) (layout : Layout) (events : List Event) (count : Nat)
    (steps : Doing (List (Datum × Datum))) : Prop :=
  ∀ p q n s operands m, layout a.finished p q → a.Holds p n s operands m →
    Follows m (steps s) (fun items t o => a.Holds q (n.after events) t (operands ++ Datum.alternating items) o ∧
      (∀ pair ∈ items, pair.2.Sound a.Known) ∧ items.length = count) a.Returning

theorem noPairs_computes : a.ComputesPairs Layout.nothing [] 0 (return []) := by
  intro p q n s operands m lies holds
  cases lies
  have held : a.Holds p n s (operands ++ Datum.alternating []) m := by
    rw [show Datum.alternating [] = [] from rfl, List.append_nil]
    exact holds
  exact .here ⟨held, List.forall_mem_nil _, rfl⟩

theorem morePairs_computes {third : Layout} {more : List Event} {count : Nat} {zs : Doing (List (Datum × Datum))}
    (key : a.Computes first events x) (value : a.Computes second others y) (rest : a.ComputesPairs third more count zs) :
    a.ComputesPairs ((first.seq second).seq third) ((events ++ others) ++ more) (count + 1)
      (do return (← (do return (← x, ← y))) :: (← zs)) := by
  intro p q n s operands m lies holds
  obtain ⟨e, ⟨g, left, right⟩, behind⟩ := lies
  rw [Names.after_append, Names.after_append]
  have pair : Follows m ((do return (← x, ← y) : Doing (Datum × Datum)) s) (fun pair t o =>
      a.Holds e ((n.after events).after others) t (operands ++ [pair.1.value] ++ [pair.2.value]) o ∧
        pair.2.Sound a.Known) a.Returning := by
    refine (key p g n s operands m left holds).bind fun d t o _ arrived => ?_
    refine (value g e _ t _ o right arrived.1).bind fun d' u r _ arrived' => ?_
    exact .here arrived'
  refine pair.bind fun pair t o _ arrived => ?_
  refine (rest e q _ t _ o behind arrived.1).bind fun items u r _ arrived' => ?_
  obtain ⟨held, sound, length⟩ := arrived'
  rw [List.append_assoc, List.append_assoc] at held
  exact .here ⟨held, List.forall_mem_cons.mpr ⟨arrived.2, sound⟩, congrArg (· + 1) length⟩

theorem inOrder_computes {pairs : List (Expr × Expr)} {step : Expr → Doing Datum}
    (each : ∀ pair ∈ pairs, a.Computes (Layout.expression pair.1) pair.1.events (step pair.1) ∧
      a.Computes (Layout.expression pair.2) pair.2.events (step pair.2)) :
    a.ComputesPairs (Layout.inOrder (pairs.map fun pair => (pair.1.text, Compiling.pairLayout pair)))
      ((pairs.map fun pair => (pair.1.text, pair.1.events ++ pair.2.events)).flatMap Prod.snd) pairs.length
      (Doing.inOrder (pairs.map fun pair => (pair.1.text, do return (← step pair.1, ← step pair.2)))) := by
  induction pairs with
  | nil => exact noPairs_computes
  | cons pair rest ih =>
    obtain ⟨key, value⟩ := each pair List.mem_cons_self
    exact morePairs_computes key value (ih fun other present => each other (List.mem_cons_of_mem _ present))

theorem hash_computes {count : Nat} {steps : Doing (List (Datum × Datum))}
    (each : a.ComputesPairs first events count steps) :
    a.Computes (first.seq (Layout.instruction ⟨.hash, [2 * count]⟩)) events
      (do let items ← steps; Doing.ofExcept (Datum.pairUp items [])) := by
  intro p q n s operands m lies holds
  obtain ⟨e, left, item, rfl⟩ := lies
  refine (each p e n s operands m left holds).bind fun items t o _ arrived => ?_
  obtain ⟨held, sound, rfl⟩ := arrived
  exact held.follows_hash sound item rfl (held.reflects.moved _) a.Returning

end Activation
end StackScript
