import StackScript.Bytecode.File
import StackScript.Proofs.Codec.RoundTrip
import StackScript.Proofs.Compiler.Pool
import StackScript.Proofs.Compiler.WellFormed
import StackScript.Proofs.Session.Safety

-- A program is read back from its file, and every program that is compiled can be written to one.
namespace StackScript

-- What a file can hold: every value in it has a type that is written, and at most 512 arrays and hashes are around it.
def Value.Storable (v : Value) : Prop := v.Throughout fun n x => n ≤ 512 ∧ TypeTag.of? x ≠ none

theorem Value.Storable.shallow {v : Value} (storable : v.Storable) : v.Shallow 512 :=
  fun n x inside => (storable n x inside).1

-- The lengths and counts that are written with a value, in their order, each with what it is called where it does not fit.

def Key.counts : Key → List (String × Nat)
  | .string s => [("string length", s.utf8ByteSize)]
  | .integer _ | .boolean _ => []

mutual

def Value.counts : Value → List (String × Nat)
  | .array items => ("array length", items.length) :: Value.itemCounts items
  | .hash pairs => ("hash size", pairs.length) :: Value.pairCounts pairs
  | .function r => [("parameter count", r.parameters), ("local count", r.locals), ("instruction length", r.code.size)]
  | .string s => Key.counts (.string s)
  | .null | .integer _ | .float _ | .boolean _ | .closure .. | .builtin _ => []

def Value.itemCounts : List Value → List (String × Nat)
  | [] => []
  | x :: xs => x.counts ++ Value.itemCounts xs

def Value.pairCounts : List (Key × Value) → List (String × Nat)
  | [] => []
  | (k, x) :: ps => k.counts ++ (x.counts ++ Value.pairCounts ps)

end

-- The first of them that four bytes cannot say.
def tooLarge? (counts : List (String × Nat)) : Option (String × Nat) := counts.find? fun count => Nat.pow 2 32 ≤ count.2

-- A writer fails exactly where one of its counts is too large, with the first of these.
def Limited (counts : List (String × Nat)) (write : Array UInt8 → Except CodecError (Array UInt8)) : Prop :=
  ∀ out e, write out = .error e ↔ ∃ what n, e = .lengthOverflow what n ∧ tooLarge? counts = some (what, n)

section
variable {write more : Array UInt8 → Except CodecError (Array UInt8)} {counts others : List (String × Nat)}

theorem Limited.next (first : Limited counts write) (second : Limited others more) :
    Limited (counts ++ others) fun out => write out >>= more := by
  intro out e
  rw [tooLarge?, List.find?_append]
  change (write out >>= more) = .error e ↔ ∃ what n, e = .lengthOverflow what n ∧
    (tooLarge? counts).or (tooLarge? others) = some (what, n)
  cases written : write out with
  | error early =>
    obtain ⟨what, n, rfl, large⟩ := (first out early).mp written
    rw [large, Option.some_or]
    constructor
    · intro failed
      cases failed
      exact ⟨what, n, rfl, rfl⟩
    · rintro ⟨what', n', rfl, same⟩
      cases same
      rfl
  | ok out' =>
    have fits : tooLarge? counts = none := by
      cases large : tooLarge? counts with
      | none => rfl
      | some count =>
        have failed := (first out _).mpr ⟨count.1, count.2, rfl, large⟩
        rw [written] at failed
        cases failed
    rw [fits, Option.none_or]
    exact second out' e

theorem Limited.tagged (b : UInt8) (limited : Limited counts write) : Limited counts fun out => write (out.push b) :=
  fun out => limited (out.push b)

theorem Limited.of_eq (limited : Limited counts write) (same : ∀ out, more out = write out) : Limited counts more := by
  intro out e
  rw [same]
  exact limited out e

theorem limited_ok (f : Array UInt8 → Array UInt8) : Limited [] fun out => .ok (f out) := by
  intro out e
  exact iff_of_false (by simp) (by rintro ⟨what, n, -, large⟩; cases large)

end

theorem count_limited (what : String) (n : Nat) : Limited [(what, n)] fun out => putCount out what n := by
  intro out e
  by_cases small : n < Nat.pow 2 32
  · have fits : putCount out what n = .ok (out ++ bigEndian 4 n) := if_pos small
    simp [tooLarge?, List.find?, fits, Nat.not_le.mpr small]
  · have fails : putCount out what n = .error (.lengthOverflow what n) := if_neg small
    simp [tooLarge?, List.find?, fails, Nat.not_lt.mp small, eq_comm]

theorem Key.limited (k : Key) : Limited k.counts fun out => k.encodeOnto out := by
  cases k with
  | integer n => exact limited_ok _
  | boolean b => exact limited_ok _
  | string s => exact ((count_limited _ _).next (limited_ok _)).tagged _

namespace Value

-- What has no type in it that is not written.
def Typed (v : Value) : Prop := v.Throughout fun _ x => TypeTag.of? x ≠ none

mutual

theorem limited : ∀ v : Value, v.Typed → Limited v.counts fun out => v.encodeOnto out
  | null, _ => limited_ok _
  | integer n, _ => Key.limited (.integer n)
  | float x, _ => limited_ok _
  | boolean b, _ => Key.limited (.boolean b)
  | string s, _ => Key.limited (.string s)
  | array items, typed => by
    have pieces := ((count_limited "array length" items.length).next (items_limited items (throughout_array.mp typed).2)).tagged
      TypeTag.array.byte
    refine pieces.of_eq fun out => ?_
    rw [encodeOnto]
    cases putCount (out.push TypeTag.array.byte) "array length" items.length <;> rfl
  | hash pairs, typed => by
    have pieces := ((count_limited "hash size" pairs.length).next (pairs_limited pairs (throughout_hash.mp typed).2)).tagged
      TypeTag.hash.byte
    refine pieces.of_eq fun out => ?_
    rw [encodeOnto]
    cases putCount (out.push TypeTag.hash.byte) "hash size" pairs.length <;> rfl
  | function r, _ => ((count_limited _ _).next ((count_limited _ _).next ((count_limited _ _).next (limited_ok _)))).tagged _
  | closure r captured, typed => absurd rfl (typed 0 _ (.here _))
  | builtin b, typed => absurd rfl (typed 0 _ (.here _))

theorem items_limited : ∀ items : List Value, (∀ x ∈ items, x.Typed) →
    Limited (itemCounts items) fun out => encodeItems out items
  | [], _ => limited_ok _
  | x :: xs, typed => by
    obtain ⟨one, others⟩ := List.forall_mem_cons.mp typed
    refine ((limited x one).next (items_limited xs others)).of_eq fun out => ?_
    rw [encodeItems]
    cases x.encodeOnto out <;> rfl

theorem pairs_limited : ∀ pairs : List (Key × Value), (∀ p ∈ pairs, TypeTag.of? p.1.toValue ≠ none ∧ p.2.Typed) →
    Limited (pairCounts pairs) fun out => encodePairs out pairs
  | [], _ => limited_ok _
  | (k, x) :: ps, typed => by
    obtain ⟨⟨-, one⟩, others⟩ := List.forall_mem_cons.mp typed
    refine (k.limited.next ((limited x one).next (pairs_limited ps others))).of_eq fun out => ?_
    rw [encodePairs]
    cases k.encodeOnto out with
    | error e => rfl
    | ok middle => cases known : x.encodeOnto middle <;> simp only [bind, Except.bind, known]

end

theorem typed_arranges {v w : Value} (arranged : v.Arranges w) : TypeTag.of? v ≠ none ↔ TypeTag.of? w ≠ none := by
  cases v with
  | array items =>
    obtain ⟨written, rfl, -⟩ := arranged
    exact .rfl
  | hash pairs =>
    obtain ⟨-, written, rfl, -⟩ := arranged
    exact .rfl
  | null | integer | float | boolean | string | function | closure | builtin =>
    cases arranged
    exact .rfl

theorem storable_arranges {items written : List Value} (arranged : ArrangesItems items written) :
    (∀ v ∈ items, v.Storable) ↔ ∀ v ∈ written, v.Storable :=
  throughout_items (fun _ _ _ same => and_congr_right' (typed_arranges same)) arranged

theorem Storable.typed {v : Value} (storable : v.Storable) : v.Typed := fun n x inside => (storable n x inside).2

theorem Pooled.storable {v : Value} (pooled : v.Pooled) : v.Ordered ∧ v.Storable := by
  have leaf : v.Leaf ∧ TypeTag.of? v ≠ none ∧ ∀ pairs, v ≠ hash pairs := by
    obtain literal | ⟨r, rfl⟩ := pooled
    · cases v <;> first | exact literal.elim | simp [Leaf, TypeTag.of?]
    · simp [Leaf, TypeTag.of?]
  obtain ⟨leaf, typed, flat⟩ := leaf
  exact ⟨(throughout_leaf leaf).mpr fun pairs equal => absurd equal (flat pairs),
    (throughout_leaf leaf).mpr ⟨Nat.zero_le _, typed⟩⟩

theorem Pooled.arranges {v : Value} (pooled : v.Pooled) : v.Arranges v := by
  obtain literal | ⟨r, rfl⟩ := pooled
  · cases v <;> first | exact literal.elim | rfl
  · rfl

theorem pooled_arranges {vs : List Value} (pooled : ∀ v ∈ vs, v.Pooled) : ArrangesItems vs vs := by
  induction vs with
  | nil => rfl
  | cons v vs ih =>
    obtain ⟨one, others⟩ := List.forall_mem_cons.mp pooled
    exact ⟨v, vs, rfl, one.arranges, ih others⟩

end Value

namespace Bytecode

def heading (signature : Nat) : List UInt8 :=
  magic ++ bigEndian 4 signature ++ [formatVersion.major, formatVersion.minor, formatVersion.patch].flatMap (bigEndian 2)

def contents (b : Bytecode) : List UInt8 :=
  bigEndian 4 b.constants.size ++ (Value.itemsBytes b.constants.toList ++ (bigEndian 4 b.code.size ++ b.code.toList))

def counts (b : Bytecode) : List (String × Nat) :=
  ("constant count", b.constants.size) :: (Value.itemCounts b.constants.toList ++ [("code length", b.code.size)])

structure Fits (b : Bytecode) : Prop where
  count : b.constants.size < Nat.pow 2 32
  constants : ∀ v ∈ b.constants.toList, v.Encodable
  code : b.code.size < Nat.pow 2 32

theorem toFile_ok {signature : Nat} {b : Bytecode} {bytes : Array UInt8} (written : toFile signature b = .ok bytes) :
    b.Fits ∧ bytes.toList = heading signature ++ b.contents := by
  have adds := (adds_count "constant count" b.constants.size).next ((Value.adds_items b.constants.toList).next
    ((adds_count "code length" b.code.size).next (adds_array b.code)))
  obtain ⟨⟨count, constants, code, -⟩, same⟩ := (adds (heading signature).toArray bytes).mp written
  exact ⟨⟨count, constants, code⟩, same⟩

theorem toFile_error {signature : Nat} {b : Bytecode} {e : CodecError} (typed : ∀ v ∈ b.constants.toList, v.Typed) :
    toFile signature b = .error e ↔ ∃ what n, e = .lengthOverflow what n ∧ tooLarge? b.counts = some (what, n) := by
  have limited := (count_limited "constant count" b.constants.size).next ((Value.items_limited _ typed).next
    ((count_limited "code length" b.code.size).next (limited_ok (· ++ b.code))))
  exact limited (heading signature).toArray e

namespace File

theorem take_reads (size : Nat) {n : Nat} {front : List UInt8} (length : front.length = n) (rest : List UInt8) :
    take size n (front ++ rest) = .ok (front, rest) := by
  subst length
  rw [take, List.take_left, List.drop_left, if_pos rfl]

theorem number_reads (size : Nat) {width n : Nat} (fits : n < byteRange width) (rest : List UInt8) :
    number size width (bigEndian width n ++ rest) = .ok (n, rest) := by
  rw [number, Decode.bind_reads (take_reads size (length_bigEndian width n) rest), Decode.ofBigEndian_bigEndian fits]
  rfl

theorem constants_reads {vs : List Value} (fits : ∀ v ∈ vs, v.Encodable) (shallow : ∀ v ∈ vs, v.Shallow 512)
    (read : Array Value) (rest : List UInt8) :
    constants vs.length read (Value.itemsBytes vs ++ rest) = .ok (read ++ Value.normalItems vs, rest) := by
  induction vs generalizing read with
  | nil =>
    rw [Value.normalItems, Array.appendList_nil]
    rfl
  | cons v vs ih =>
    obtain ⟨one, others⟩ := List.forall_mem_cons.mp fits
    obtain ⟨flat, flats⟩ := List.forall_mem_cons.mp shallow
    have first (rest : List UInt8) : constant read.size (v.bytes ++ rest) = .ok (v.normal, rest) := by
      have value : Decode.value (v.bytes ++ rest) = .ok (v.normal, rest) := (v.regains 512 one).reads flat rest
      simp only [constant, value]
    rw [List.length_cons, constants, Value.itemsBytes, List.append_assoc, Decode.bind_reads (first _),
      ih others flats, Value.normalItems]
    simp

theorem goes_on {α : Type} {c : Prop} [Decidable c] (no : ¬ c) (x y : Reading α) (bytes : List UInt8) :
    (if c then x else y) bytes = y bytes := by rw [if_neg no]

theorem heading_append (signature : Nat) (rest : List UInt8) : heading signature ++ rest =
    magic ++ (bigEndian 4 signature ++ (bigEndian 2 1 ++ (bigEndian 2 0 ++ (bigEndian 2 0 ++ rest)))) := by
  simp [heading, formatVersion]

-- Which language a file is of is known before anything else of it is read.
theorem program_other {signature found : Nat} (size : Nat) (fits : found < Nat.pow 2 32) (other : found ≠ signature)
    (rest : List UInt8) : program signature size (heading found ++ rest) = .error (.otherLanguage signature found) := by
  rw [heading_append]
  refine (Decode.bind_reads (take_reads size (show magic.length = 4 from rfl) _) _).trans ?_
  refine (goes_on (not_not_intro rfl) ..).trans ?_
  refine (Decode.bind_reads (number_reads size fits _) _).trans ?_
  simp only [if_pos other]
  rfl

theorem program_reads {signature : Nat} (size : Nat) (signed : signature < Nat.pow 2 32) {b : Bytecode} (fits : b.Fits)
    (shallow : ∀ v ∈ b.constants.toList, v.Shallow 512) :
    program signature size (heading signature ++ b.contents) =
      .ok (⟨b.code, (Value.normalItems b.constants.toList).toArray⟩, []) := by
  have small (n : Nat) (low : n < 2) : n < byteRange 2 := Nat.lt_trans low (by decide)
  have constants := constants_reads fits.constants shallow #[] (bigEndian 4 b.code.size ++ b.code.toList)
  have code := take_reads size b.code.length_toList []
  rw [List.append_nil] at code
  rw [heading_append, contents]
  refine (Decode.bind_reads (take_reads size (show magic.length = 4 from rfl) _) _).trans ?_
  refine (goes_on (not_not_intro rfl) ..).trans ?_
  refine (Decode.bind_reads (number_reads size signed _) _).trans ?_
  refine (goes_on (not_not_intro rfl) ..).trans ?_
  refine (Decode.bind_reads (number_reads size (small 1 (by decide)) _) _).trans ?_
  refine (Decode.bind_reads (number_reads size (small 0 (by decide)) _) _).trans ?_
  refine (Decode.bind_reads (number_reads size (small 0 (by decide)) _) _).trans ?_
  refine (goes_on (by decide) ..).trans ?_
  refine (Decode.bind_reads (number_reads size fits.count _) _).trans ?_
  refine (Decode.bind_reads constants _).trans ?_
  refine (Decode.bind_reads (number_reads size fits.code _) _).trans ?_
  refine (Decode.bind_reads code _).trans ?_
  have all : (#[] : Array Value) ++ Value.normalItems b.constants.toList = (Value.normalItems b.constants.toList).toArray := by simp
  rw [all, Array.toArray_toList]
  rfl

end File

-- What is written to a file is read back from it, in the language it was written for and in no other.
theorem loads_back {signature : Nat} {b : Bytecode} {written : List Value} (signed : signature < Nat.pow 2 32)
    (storable : ∀ v ∈ b.constants, v.Ordered ∧ v.Storable) (arranged : Value.ArrangesItems b.constants.toList written) :
    (∀ e, toFile signature ⟨b.code, written.toArray⟩ = .error e ↔
      ∃ what n, e = .lengthOverflow what n ∧ tooLarge? (counts ⟨b.code, written.toArray⟩) = some (what, n)) ∧
    ∀ bytes, toFile signature ⟨b.code, written.toArray⟩ = .ok bytes →
      ofFile signature bytes.toList = .ok b ∧
      ∀ other, other ≠ signature → ofFile other bytes.toList = .error (.otherLanguage other signature) := by
  have each : ∀ v ∈ written, v.Storable :=
    (Value.storable_arranges arranged).mp fun v present => (storable v (Array.mem_toList_iff.mp present)).2
  have restored : Value.normalItems written = b.constants.toList :=
    Value.normalItems_eq (fun v present => (storable v (Array.mem_toList_iff.mp present)).1) arranged
  constructor
  · exact fun e => toFile_error fun v present => (each v present).typed
  · intro bytes encoded
    obtain ⟨fits, same⟩ := toFile_ok encoded
    constructor
    · have read := File.program_reads bytes.toList.length signed fits fun v present => (each v present).shallow
      rw [← same, restored, Array.toArray_toList] at read
      simp only [ofFile, StateT.run', read]
      rfl
    · intro other different
      have refused := File.program_other bytes.toList.length signed (Ne.symm different) (contents ⟨b.code, written.toArray⟩)
      rw [← same] at refused
      simp only [ofFile, StateT.run', refused]
      rfl

end Bytecode

theorem Session.after_pooled (inputs : List (Nat × String)) :
    (new.after inputs).Sound ∧ ∀ v ∈ (new.after inputs).constants, v.Pooled := by
  refine after_keeps (fun s => s.Sound ∧ ∀ v ∈ s.constants, v.Pooled) ?_ inputs ⟨new_sound, by simp [new]⟩
  rintro s budget source ⟨sound, pooled⟩
  refine ⟨(eval_sound sound budget source).2, ?_⟩
  rcases eval_cases s budget source with ⟨e, -, equal⟩ | ⟨p, c, compiled, ending, m, ran, equal⟩
  · rw [equal]
    exact pooled
  · rw [equal]
    exact Compiler.compile_pooled sound.symbols sound.main compiled pooled

namespace Bytecode

-- A program whose constants have no closure and no native function in them, and nothing too deep, is written to a file
-- unless one of its lengths and counts takes more than four bytes, in whatever order the pairs of hashes are written. From the
-- file it is read back, but for another language it is refused as one of the language it was written for. All that is
-- compiled, in any session, is such a program: what its file holds is the very code, and evaluates to the same.
theorem file_round_trip :
    (∀ (signature : Nat) (b : Bytecode) (written : List Value), signature < Nat.pow 2 32 →
      (∀ v ∈ b.constants, v.Ordered ∧ v.Storable) → Value.ArrangesItems b.constants.toList written →
      (∀ e, toFile signature ⟨b.code, written.toArray⟩ = .error e ↔
        ∃ what n, e = .lengthOverflow what n ∧ tooLarge? (counts ⟨b.code, written.toArray⟩) = some (what, n)) ∧
      ∀ bytes, toFile signature ⟨b.code, written.toArray⟩ = .ok bytes →
        ofFile signature bytes.toList = .ok b ∧
        ∀ other, other ≠ signature → ofFile other bytes.toList = .error (.otherLanguage other signature)) ∧
    ∀ (inputs : List (Nat × String)) (p : Program) (c : Compiler),
      (Compiler.resume (Session.new.after inputs).symbols (Session.new.after inputs).constants).compile p = .ok () c →
      (∀ v ∈ c.bytecode.constants, v.Ordered ∧ v.Storable) ∧
      ∀ signature bytes, signature < Nat.pow 2 32 → toFile signature c.bytecode = .ok bytes →
        ofFile signature bytes.toList = .ok c.bytecode ∧
        ∀ budget, (ofFile signature bytes.toList).map (evaluate budget) = .ok (c.bytecode.evaluate budget) := by
  refine ⟨fun signature b written signed storable arranged => loads_back signed storable arranged, ?_⟩
  intro inputs p c compiled
  obtain ⟨sound, before⟩ := Session.after_pooled inputs
  have pooled := Compiler.compile_pooled sound.symbols sound.main compiled before
  have storable : ∀ v ∈ c.bytecode.constants, v.Ordered ∧ v.Storable := fun v present => (pooled v present).storable
  refine ⟨storable, ?_⟩
  intro signature bytes signed encoded
  have arranged := Value.pooled_arranges fun v present => pooled v (Array.mem_toList_iff.mp present)
  have read := ((loads_back (b := c.bytecode) signed storable arranged).2 bytes encoded).1
  refine ⟨read, fun budget => ?_⟩
  rw [read]
  rfl

-- A file with the pairs of a hash the other way round, and the file of a program with a function.
theorem file_round_trip_swapped :
    let b : Bytecode := ⟨#[0, 0, 0], #[.hash [(.integer 1, .null), (.boolean true, .null)]]⟩
    (∃ bytes, toFile languageSignature ⟨b.code, #[.hash [(.boolean true, .null), (.integer 1, .null)]]⟩ = .ok bytes ∧
      ofFile languageSignature bytes.toList = .ok b ∧
      ofFile 7 bytes.toList = .error (.otherLanguage 7 languageSignature)) ∧
    ∃ c bytes, Compiler.new.compile Program.adder = .ok () c ∧ toFile languageSignature c.bytecode = .ok bytes ∧
      ofFile languageSignature bytes.toList = .ok c.bytecode := by
  intro b
  constructor
  · have leaf : Value.null.Leaf := trivial
    have storable : ∀ v ∈ b.constants, v.Ordered ∧ v.Storable := by
      simp [b, Value.Ordered, Value.Storable, Value.throughout_hash, Value.throughout_leaf leaf, Value.Rising, Key.compare,
        Key.toValue, TypeTag.of?]
    have arranged : Value.ArrangesItems b.constants.toList [.hash [(.boolean true, .null), (.integer 1, .null)]] :=
      ⟨_, [], rfl, ⟨[(.integer 1, .null), (.boolean true, .null)], _, rfl, ⟨_, _, rfl, rfl, _, [], rfl, rfl, rfl⟩, .swap ..⟩,
        rfl⟩
    obtain ⟨read, refused⟩ := (file_round_trip.1 languageSignature b _ (by decide) storable arranged).2 _ rfl
    exact ⟨_, rfl, read, refused 7 (by decide)⟩
  · obtain ⟨c, compiled⟩ : Program.adder.Compiles := by decide +kernel
    have fits : (Compiler.new.after Program.adder).toOption.any fun c => (toFile languageSignature c.bytecode).toBool := by
      decide +kernel
    rw [Compiler.after, compiled] at fits
    cases written : toFile languageSignature c.bytecode with
    | error e => simp [Except.toOption, Except.toBool, written] at fits
    | ok bytes =>
      have read := ((file_round_trip.2 [] Program.adder c compiled).2 languageSignature bytes (by decide) written).1
      exact ⟨c, bytes, compiled, written, read⟩

end Bytecode
end StackScript
