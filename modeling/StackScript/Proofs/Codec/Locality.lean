import StackScript.Codec.Decode

-- Decoding looks at the bytes of a value and at nothing behind them, and no value is the beginning of another.
namespace StackScript.Decode

def Malformed {α : Type} (r : Except CodecError α) : Prop := ∃ tag reason, r = .error (.malformed tag reason)

section
variable {α β : Type}

-- A reader takes some bytes for a value, whatever follows them, and does not make do with fewer of them.
structure Takes (x : Reading α) (v : α) (front : List UInt8) : Prop where
  reads : ∀ more, x (front ++ more) = .ok (v, more)
  cuts : ∀ k, k < front.length → Malformed (x (front.take k))

def Local (x : Reading α) : Prop :=
  ∀ bytes v rest, x bytes = .ok (v, rest) → ∃ front, bytes = front ++ rest ∧ Takes x v front

theorem bind_ok {ε : Type} {x : StateT (List UInt8) (Except ε) α} {f : α → StateT (List UInt8) (Except ε) β}
    {bytes rest : List UInt8} {v : β} :
    (x >>= f) bytes = .ok (v, rest) ↔ ∃ u middle, x bytes = .ok (u, middle) ∧ f u middle = .ok (v, rest) := by
  simp only [bind, StateT.bind, Except.bind]
  cases x bytes with
  | error e => simp
  | ok pair =>
    obtain ⟨u, middle⟩ := pair
    constructor
    · intro next
      exact ⟨u, middle, rfl, next⟩
    · rintro ⟨_, _, equal, next⟩
      cases equal
      exact next

theorem bind_malformed {x : Reading α} {bytes : List UInt8} (failed : Malformed (x bytes)) (f : α → Reading β) :
    Malformed ((x >>= f) bytes) := by
  obtain ⟨tag, reason, failed⟩ := failed
  refine ⟨tag, reason, ?_⟩
  simp only [bind, StateT.bind, Except.bind, failed]

theorem bind_reads {ε : Type} {x : StateT (List UInt8) (Except ε) α} {bytes rest : List UInt8} {u : α}
    (read : x bytes = .ok (u, rest)) (f : α → StateT (List UInt8) (Except ε) β) : (x >>= f) bytes = f u rest := by
  simp only [bind, StateT.bind, Except.bind, read]

theorem pure_local (v : α) : Local (pure v : Reading α) := by
  intro bytes u rest read
  cases read
  exact ⟨[], rfl, fun more => rfl, fun k below => absurd below (Nat.not_lt_zero k)⟩

theorem throw_local (e : CodecError) : Local (throw e : Reading α) := by
  intro bytes v rest read
  cases read

-- A cut lies in what the first reader takes or in what the second one takes.
theorem bind_local {x : Reading α} {f : α → Reading β} (first : Local x) (second : ∀ u, Local (f u)) :
    Local (x >>= f) := by
  intro bytes v rest read
  obtain ⟨u, middle, one, two⟩ := bind_ok.mp read
  obtain ⟨front, rfl, reads, cuts⟩ := first bytes u middle one
  obtain ⟨back, rfl, reads', cuts'⟩ := second u middle v rest two
  refine ⟨front ++ back, (List.append_assoc ..).symm, fun more => ?_, fun k below => ?_⟩
  · rw [List.append_assoc, bind_reads (reads (back ++ more))]
    exact reads' more
  · rw [List.length_append] at below
    by_cases inside : k < front.length
    · rw [List.take_append_of_le_length (Nat.le_of_lt inside)]
      exact bind_malformed (cuts k inside) f
    · rw [List.take_append, List.take_of_length_le (Nat.le_of_not_lt inside), bind_reads (reads _)]
      exact cuts' (k - front.length) (by omega)

end

theorem take_local (tag : TypeTag) (n : Nat) : Local (take tag n) := by
  intro bytes v rest read
  unfold take at read
  simp only at read
  split at read
  · rename_i length
    cases read
    refine ⟨bytes.take n, (List.take_append_drop n bytes).symm, fun more => ?_, fun k below => ?_⟩
    · simp only [take]
      rw [List.take_append_of_le_length (Nat.le_of_eq length.symm), List.take_of_length_le (Nat.le_of_eq length),
        if_pos length, List.drop_append_of_le_length (Nat.le_of_eq length.symm),
        List.drop_of_length_le (Nat.le_of_eq length), List.nil_append]
    · refine ⟨tag, "unexpected end of input", ?_⟩
      simp only [take]
      rw [if_neg]
      intro whole
      simp only [List.length_take] at whole below
      omega
  · cases read

theorem number_local (tag : TypeTag) (width : Nat) : Local (number tag width) :=
  bind_local (take_local tag width) fun _ => pure_local _

section
variable {element : Reading Value}

theorem items_local (each : Local element) (n : Nat) (read : List Value) : Local (items element n read) := by
  induction n generalizing read with
  | zero => exact pure_local _
  | succ n ih => exact bind_local each fun v => ih (v :: read)

theorem pairs_local (each : Local element) (n : Nat) (read : List (Key × Value)) : Local (pairs element n read) := by
  induction n generalizing read with
  | zero => exact pure_local _
  | succ n ih =>
    refine bind_local each fun v => ?_
    cases v.key? with
    | none => exact throw_local _
    | some k => exact bind_local each fun w => ih (Value.insert k w read)

theorem payload_local (each : Local element) (tag : TypeTag) : Local (payload element tag) := by
  cases tag with
  | null => exact pure_local _
  | integer => exact bind_local (number_local _ 4) fun _ => pure_local _
  | float => exact bind_local (number_local _ 8) fun _ => pure_local _
  | boolean =>
    refine bind_local (number_local _ 1) fun b => ?_
    split
    · exact pure_local _
    · exact pure_local _
    · exact throw_local _
  | string =>
    refine bind_local (number_local _ 4) fun n => bind_local (take_local _ n) fun text => ?_
    split
    · exact pure_local _
    · exact throw_local _
  | array => exact bind_local (number_local _ 4) fun n => bind_local (items_local each n []) fun _ => pure_local _
  | hash => exact bind_local (number_local _ 4) fun n => bind_local (pairs_local each n []) fun _ => pure_local _
  | function =>
    exact bind_local (number_local _ 4) fun _ => bind_local (number_local _ 4) fun _ =>
      bind_local (number_local _ 4) fun n => bind_local (take_local _ n) fun _ => pure_local _

end

-- What is inside an array or a hash that `levels` more may be inside of.
def element (levels : Nat) (tag : TypeTag) : Reading Value :=
  match levels with
  | 0 => throw (.malformed tag "nesting too deep")
  | levels + 1 => nested levels

theorem nested_cons {levels : Nat} {b : UInt8} {tag : TypeTag} (known : TypeTag.ofByte b = .ok tag) (bytes : List UInt8) :
    nested levels (b :: bytes) = payload (element levels tag) tag bytes := by
  cases levels <;> simp only [nested, known, element]

theorem nested_of_element {levels : Nat} (each : ∀ tag, Local (element levels tag)) : Local (nested levels) := by
  intro bytes v rest read
  cases bytes with
  | nil =>
    unfold nested at read
    cases read
  | cons b bytes =>
    cases known : TypeTag.ofByte b with
    | error e =>
      unfold nested at read
      simp only [known] at read
      cases read
    | ok tag =>
      rw [nested_cons known] at read
      obtain ⟨front, rfl, takes⟩ := payload_local (each tag) tag bytes v rest read
      refine ⟨b :: front, rfl, fun more => ?_, fun k below => ?_⟩
      · rw [List.cons_append, nested_cons known]
        exact takes.reads more
      · cases k with
        | zero =>
          unfold nested
          exact ⟨.null, "empty input", rfl⟩
        | succ k =>
          rw [List.take_succ_cons, nested_cons known]
          exact takes.cuts k (Nat.lt_of_succ_lt_succ below)

theorem nested_local (levels : Nat) : Local (nested levels) := by
  induction levels with
  | zero => exact nested_of_element fun tag => throw_local _
  | succ levels ih => exact nested_of_element fun tag => ih

theorem value_local : Local value := nested_local maxNesting

theorem value_takes {v : Value} {front : List UInt8} (takes : Takes value v front) : 0 < front.length := by
  cases front with
  | nil => cases takes.reads []
  | cons b front => exact Nat.succ_pos _

theorem value_shorter {bytes rest : List UInt8} {v : Value} (read : value bytes = .ok (v, rest)) :
    rest.length < bytes.length := by
  obtain ⟨front, rfl, takes⟩ := value_local bytes v rest read
  rw [List.length_append]
  have positive := value_takes takes
  omega

-- Values until nothing is left. Every turn leaves fewer bytes, so the fuel is never what ends them.

theorem valuesFrom_append (fuel : Nat) (read : List Value) (bytes : List UInt8) :
    valuesFrom fuel read bytes = (valuesFrom fuel [] bytes).map (read.reverse ++ ·) := by
  induction fuel generalizing read bytes with
  | zero => simp [valuesFrom, Except.map]
  | succ fuel ih =>
    simp only [valuesFrom]
    split
    · simp [Except.map]
    · split
      · rename_i v rest read_value
        rw [ih (v :: read), ih [v]]
        cases valuesFrom fuel [] rest <;> simp [Except.map]
      · rfl

theorem valuesFrom_enough {fuel more : Nat} {bytes : List UInt8} (enough : bytes.length ≤ fuel) (order : fuel ≤ more)
    (read : List Value) : valuesFrom more read bytes = valuesFrom fuel read bytes := by
  induction more generalizing fuel bytes read with
  | zero =>
    cases Nat.le_zero.mp order
    rfl
  | succ more ih =>
    cases fuel with
    | zero =>
      cases List.length_eq_zero_iff.mp (Nat.le_zero.mp enough)
      rfl
    | succ fuel =>
      simp only [valuesFrom]
      split
      · rfl
      · split
        · rename_i v rest read_value
          have shorter := value_shorter read_value
          exact ih (by omega) (Nat.le_of_succ_le_succ order) _
        · rfl

theorem values_eq (bytes : List UInt8) : values bytes =
    if bytes = [] then .ok []
    else
      match value bytes with
      | .ok (v, rest) => (values rest).map (v :: ·)
      | .error e => .error e := by
  cases bytes with
  | nil => rfl
  | cons b bytes =>
    rw [if_neg (List.cons_ne_nil b bytes)]
    simp only [values, List.length_cons, valuesFrom, List.isEmpty_cons, Bool.false_eq_true, if_false]
    cases read : value (b :: bytes) with
    | error e => rfl
    | ok pair =>
      obtain ⟨v, rest⟩ := pair
      have shorter := value_shorter read
      rw [List.length_cons] at shorter
      simp only
      rw [valuesFrom_enough (Nat.le_refl rest.length) (Nat.le_of_lt_succ shorter), valuesFrom_append]
      rfl

theorem values_append {xs : List Value} {front : List UInt8} (read : values front = .ok xs) (back : List UInt8) :
    values (front ++ back) = (values back).map (xs ++ ·) := by
  induction xs generalizing front with
  | nil =>
    rw [values_eq] at read
    split at read
    · rename_i empty
      rw [empty, List.nil_append]
      cases values back <;> rfl
    · split at read
      · rename_i rest _
        cases known : values rest <;> simp [known, Except.map] at read
      · cases read
  | cons x xs ih =>
    rw [values_eq] at read
    split at read
    · cases read
    · split at read
      · rename_i nonempty v rest read_value
        cases known : values rest with
        | error e => simp [known, Except.map] at read
        | ok ys =>
          simp only [known, Except.map, Except.ok.injEq, List.cons.injEq] at read
          obtain ⟨rfl, rfl⟩ := read
          obtain ⟨bytes, rfl, takes⟩ := value_local front v rest read_value
          rw [values_eq, if_neg (by simp_all), List.append_assoc, takes.reads]
          simp only [ih known]
          cases values back <;> rfl
      · cases read

-- A decoded value takes some of the bytes, is decoded from just these whatever follows them, and from no fewer of them:
-- with any cut off, they are malformed. So a run of values decodes one after another to the end of the bytes, and the
-- values of two runs in a row are those of the first and then those of the second.
theorem decoding_local :
    (∀ bytes v rest, value bytes = .ok (v, rest) → ∃ n, 1 ≤ n ∧ n ≤ bytes.length ∧ rest = bytes.drop n ∧
      (∀ more, value (bytes.take n ++ more) = .ok (v, more)) ∧
      ∀ k < n, ∃ tag reason, value (bytes.take k) = .error (.malformed tag reason)) ∧
    (∀ bytes, values bytes =
      if bytes = [] then .ok []
      else
        match value bytes with
        | .ok (v, rest) => (values rest).map (v :: ·)
        | .error e => .error e) ∧
    ∀ front back xs, values front = .ok xs → values (front ++ back) = (values back).map (xs ++ ·) := by
  refine ⟨fun bytes v rest read => ?_, values_eq, fun front back xs read => values_append read back⟩
  obtain ⟨front, rfl, takes⟩ := value_local bytes v rest read
  refine ⟨front.length, value_takes takes, ?_, List.drop_left.symm, fun more => ?_, fun k below => ?_⟩
  · rw [List.length_append]
    exact Nat.le_add_right ..
  · rw [List.take_left]
    exact takes.reads more
  · rw [List.take_append_of_le_length (Nat.le_of_lt below)]
    exact takes.cuts k below

-- An array of one boolean, with a byte behind it.
theorem decoding_local_array :
    value [5, 0, 0, 0, 1, 3, 1, 9] = .ok (.array [.boolean true], [9]) ∧
    (∀ more, value ([5, 0, 0, 0, 1, 3, 1] ++ more) = .ok (.array [.boolean true], more)) ∧
    (∀ k < 7, ∃ tag reason, value ([5, 0, 0, 0, 1, 3, 1].take k) = .error (.malformed tag reason)) ∧
    ∀ back, values ([5, 0, 0, 0, 1, 3, 1] ++ back) = (values back).map ([.array [.boolean true]] ++ ·) := by
  have read : value [5, 0, 0, 0, 1, 3, 1, 9] = .ok (.array [.boolean true], [9]) := rfl
  have whole : values [5, 0, 0, 0, 1, 3, 1] = .ok [.array [.boolean true]] := rfl
  obtain ⟨one, -, joined⟩ := decoding_local
  obtain ⟨n, -, inside, rest, reads, cuts⟩ := one _ _ _ read
  obtain rfl : n = 7 := by
    have left := congrArg List.length rest
    simp only [List.length_drop, List.length_cons, List.length_nil] at left inside
    omega
  refine ⟨read, reads, fun k below => ?_, fun back => joined _ back _ whole⟩
  have cut := cuts k below
  rwa [show ([5, 0, 0, 0, 1, 3, 1, 9] : List UInt8) = [5, 0, 0, 0, 1, 3, 1] ++ [9] from rfl,
    List.take_append_of_le_length (Nat.le_of_lt below)] at cut

end StackScript.Decode
