import StackScript.Bytecode.File
import StackScript.Proofs.Codec.Locality

-- A program file is accepted only whole: with anything cut off its end or put behind it, it is no program.
namespace StackScript.Bytecode.File

def Damaged {α : Type} (r : Except LoadError α) : Prop := ∃ damage, r = .error (.damaged damage)

section
variable {α β : Type}

-- The readers of a file know its size, which only their complaints mention.
structure Takes (x : Nat → Reading α) (v : α) (front : List UInt8) : Prop where
  reads : ∀ size more, x size (front ++ more) = .ok (v, more)
  cuts : ∀ size k, k < front.length → Damaged (x size (front.take k))

def Local (x : Nat → Reading α) : Prop :=
  ∀ size bytes v rest, x size bytes = .ok (v, rest) → ∃ front, bytes = front ++ rest ∧ Takes x v front

-- A reader takes all the bytes there are, and neither fewer of them nor more.
structure Fills (x : Nat → Reading α) (bytes : List UInt8) : Prop where
  cuts : ∀ size k, k < bytes.length → Damaged (x size (bytes.take k))
  ends : ∀ size more, more ≠ [] → x size (bytes ++ more) = .error (.damaged (.trailing more.length))

def Whole (x : Nat → Reading α) : Prop := ∀ size bytes v rest, x size bytes = .ok (v, rest) → Fills x bytes

theorem bind_damaged {x : Reading α} {bytes : List UInt8} (failed : Damaged (x bytes)) (f : α → Reading β) :
    Damaged ((x >>= f) bytes) := by
  obtain ⟨damage, failed⟩ := failed
  exact ⟨damage, by simp only [bind, StateT.bind, Except.bind, failed]⟩

theorem bind_cuts {x : Nat → Reading α} {f : α → Nat → Reading β} {u : α} {front back : List UInt8}
    (first : Takes x u front) (second : ∀ size k, k < back.length → Damaged (f u size (back.take k))) (size k : Nat)
    (below : k < (front ++ back).length) : Damaged ((x size >>= fun u => f u size) ((front ++ back).take k)) := by
  rw [List.length_append] at below
  by_cases inside : k < front.length
  · rw [List.take_append_of_le_length (Nat.le_of_lt inside)]
    exact bind_damaged (first.cuts size k inside) _
  · rw [List.take_append, List.take_of_length_le (Nat.le_of_not_lt inside), Decode.bind_reads (first.reads size _)]
    exact second size (k - front.length) (by omega)

theorem pure_local (v : α) : Local fun _ => (pure v : Reading α) := by
  intro size bytes u rest read
  cases read
  exact ⟨[], rfl, fun size more => rfl, fun size k below => absurd below (Nat.not_lt_zero k)⟩

theorem bind_local {x : Nat → Reading α} {f : α → Nat → Reading β} (first : Local x) (second : ∀ u, Local (f u)) :
    Local fun size => x size >>= fun u => f u size := by
  intro size bytes v rest read
  obtain ⟨u, middle, one, two⟩ := Decode.bind_ok.mp read
  obtain ⟨front, rfl, takes⟩ := first size bytes u middle one
  obtain ⟨back, rfl, takes'⟩ := second u size middle v rest two
  refine ⟨front ++ back, (List.append_assoc ..).symm, fun size more => ?_, bind_cuts takes takes'.cuts⟩
  rw [List.append_assoc, Decode.bind_reads (takes.reads size (back ++ more))]
  exact takes'.reads size more

theorem bind_whole {x : Nat → Reading α} {f : α → Nat → Reading β} (first : Local x) (second : ∀ u, Whole (f u)) :
    Whole fun size => x size >>= fun u => f u size := by
  intro size bytes v rest read
  obtain ⟨u, middle, one, two⟩ := Decode.bind_ok.mp read
  obtain ⟨front, rfl, takes⟩ := first size bytes u middle one
  have fills := second u size middle v rest two
  refine ⟨bind_cuts takes fills.cuts, fun size more nonempty => ?_⟩
  rw [List.append_assoc, Decode.bind_reads (takes.reads size (middle ++ more))]
  exact fills.ends size more nonempty

theorem refuse_whole (e : LoadError) (f : Unit → Nat → Reading α) : Whole fun size => throw e >>= fun u => f u size := by
  intro size bytes v rest read
  cases read

theorem choice_whole {c : Prop} [Decidable c] {x y : Nat → Reading α} (yes : Whole x) (no : Whole y) :
    Whole fun size => if c then x size else y size := by
  split
  · exact yes
  · exact no

end

theorem take_local (n : Nat) : Local fun size => take size n := by
  intro size bytes v rest read
  unfold take at read
  simp only at read
  split at read
  · rename_i length
    cases read
    refine ⟨bytes.take n, (List.take_append_drop n bytes).symm, fun size more => ?_, fun size k below => ?_⟩
    · simp only [take]
      rw [List.take_append_of_le_length (Nat.le_of_eq length.symm), List.take_of_length_le (Nat.le_of_eq length),
        if_pos length, List.drop_append_of_le_length (Nat.le_of_eq length.symm),
        List.drop_of_length_le (Nat.le_of_eq length), List.nil_append]
    · refine ⟨.endOfFile (size - ((bytes.take n).take k).length) n, ?_⟩
      simp only [take]
      rw [if_neg]
      intro whole
      simp only [List.length_take] at whole below
      omega
  · cases read

theorem number_local (width : Nat) : Local fun size => number size width :=
  bind_local (take_local width) fun _ => pure_local _

theorem constant_local (number : Nat) : Local fun _ => constant number := by
  intro size bytes v rest read
  simp only [constant] at read
  split at read
  · rename_i pair found
    cases read
    obtain ⟨front, rfl, takes⟩ := Decode.value_local bytes v rest found
    refine ⟨front, rfl, fun size more => ?_, fun size k below => ?_⟩
    · simp only [constant, takes.reads more]
    · obtain ⟨tag, reason, failed⟩ := takes.cuts k below
      exact ⟨.constant number (.malformed tag reason), by simp only [constant, failed]⟩
  · cases read

theorem constants_local (n : Nat) (read : Array Value) : Local fun _ => constants n read := by
  induction n generalizing read with
  | zero => exact pure_local _
  | succ n ih => exact bind_local (constant_local _) fun v => ih (read.push v)

theorem rest_whole (b : Bytecode) : Whole fun _ => (do
    let rest ← get
    if !rest.isEmpty then throw (.damaged (.trailing rest.length))
    return b : Reading Bytecode) := by
  intro size bytes v rest read
  cases bytes with
  | cons byte bytes => cases read
  | nil =>
    refine ⟨fun size k below => absurd below (Nat.not_lt_zero k), fun size more nonempty => ?_⟩
    cases more with
    | nil => exact absurd rfl nonempty
    | cons byte more => rfl

theorem program_whole (signature : Nat) : Whole (program signature) := by
  unfold program
  refine bind_whole (take_local 4) fun front => choice_whole (refuse_whole _ _) ?_
  refine bind_whole (number_local 4) fun found => choice_whole (refuse_whole _ _) ?_
  refine bind_whole (number_local 2) fun major => bind_whole (number_local 2) fun minor => ?_
  refine bind_whole (number_local 2) fun patch => choice_whole (refuse_whole _ _) ?_
  refine bind_whole (number_local 4) fun count => bind_whole (constants_local count #[]) fun constants => ?_
  refine bind_whole (number_local 4) fun length => bind_whole (take_local length) fun code => ?_
  exact rest_whole ⟨code.toArray, constants⟩

end File

theorem ofFile_ok {signature : Nat} {bytes : List UInt8} {b : Bytecode} (read : ofFile signature bytes = .ok b) :
    ∃ rest, File.program signature bytes.length bytes = .ok (b, rest) := by
  simp only [ofFile, StateT.run'] at read
  cases whole : File.program signature bytes.length bytes with
  | error e => simp [whole, Functor.map, Except.map] at read
  | ok pair =>
    simp only [whole, Functor.map, Except.map, Except.ok.injEq] at read
    exact ⟨pair.2, by rw [← read]⟩

theorem ofFile_error {signature : Nat} {bytes : List UInt8} {e : LoadError}
    (failed : File.program signature bytes.length bytes = .error e) : ofFile signature bytes = .error e := by
  simp only [ofFile, StateT.run', failed, Functor.map, Except.map]

-- A file that is read holds its program as a whole: what is left of it after a cut anywhere is damaged, and so is the
-- file with anything behind it.
theorem ofFile_whole {signature : Nat} {bytes : List UInt8} {b : Bytecode} (read : ofFile signature bytes = .ok b) :
    (∀ front, front <+: bytes → front ≠ bytes → ∃ damage, ofFile signature front = .error (.damaged damage)) ∧
    ∀ more, more ≠ [] → ofFile signature (bytes ++ more) = .error (.damaged (.trailing more.length)) := by
  obtain ⟨rest, read⟩ := ofFile_ok read
  have fills := File.program_whole signature bytes.length bytes b rest read
  refine ⟨fun front begins proper => ?_, fun more nonempty => ofFile_error (fills.ends _ more nonempty)⟩
  have below : front.length < bytes.length :=
    Nat.lt_of_le_of_ne begins.length_le fun equal => proper (begins.eq_of_length equal)
  obtain ⟨damage, failed⟩ := fills.cuts front.length front.length below
  rw [← List.prefix_iff_eq_take.mp begins] at failed
  exact ⟨damage, ofFile_error failed⟩

-- A file with the array of null and true as its only constant.
theorem ofFile_whole_pair :
    let bytes : List UInt8 := [0x48, 0x52, 0x4d, 0x53, 0x4d, 0x4b, 0x45, 0x59, 0, 1, 0, 0, 0, 0, 0, 0, 0, 1, 5, 0, 0, 0, 2, 0,
      3, 1, 0, 0, 0, 4, 0, 0, 0, 1]
    ofFile languageSignature bytes = .ok ⟨#[0, 0, 0, 1], #[.array [.null, .boolean true]]⟩ ∧
      (∀ front, front <+: bytes → front ≠ bytes →
        ∃ damage, ofFile languageSignature front = .error (.damaged damage)) ∧
      ∀ more, more ≠ [] → ofFile languageSignature (bytes ++ more) = .error (.damaged (.trailing more.length)) :=
  have read := by rfl
  ⟨read, ofFile_whole read⟩

end StackScript.Bytecode
