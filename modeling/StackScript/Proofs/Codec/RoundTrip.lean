import StackScript.Proofs.Code.Encoding
import StackScript.Proofs.Codec.Arrangement
import StackScript.Proofs.Codec.Locality

-- A value is read back from its encoding, unless too many arrays and hashes are around something in it.
namespace StackScript

-- The bytes of an encoding.

def Key.bytes : Key → List UInt8
  | integer n => TypeTag.integer.byte :: bigEndian 4 n.toUInt32.toNat
  | boolean b => [TypeTag.boolean.byte, if b then 1 else 0]
  | string s => TypeTag.string.byte :: (bigEndian 4 s.utf8ByteSize ++ s.toUTF8.data.toList)

namespace Value

mutual

def bytes : Value → List UInt8
  | null => [TypeTag.null.byte]
  | integer n => (Key.integer n).bytes
  | float x => TypeTag.float.byte :: bigEndian 8 x.bits.toNat
  | boolean b => (Key.boolean b).bytes
  | string s => (Key.string s).bytes
  | array items => TypeTag.array.byte :: (bigEndian 4 items.length ++ itemsBytes items)
  | hash pairs => TypeTag.hash.byte :: (bigEndian 4 pairs.length ++ pairsBytes pairs)
  | function r => TypeTag.function.byte ::
    (bigEndian 4 r.parameters ++ (bigEndian 4 r.locals ++ (bigEndian 4 r.code.size ++ r.code.toList)))
  | closure .. | builtin _ => []

def itemsBytes : List Value → List UInt8
  | [] => []
  | x :: xs => x.bytes ++ itemsBytes xs

def pairsBytes : List (Key × Value) → List UInt8
  | [] => []
  | (k, x) :: ps => k.bytes ++ (x.bytes ++ pairsBytes ps)

end

-- What keeps a value from being written: it is neither a closure nor native, and its own sizes take four bytes.
def Writable : Value → Prop
  | string s => s.utf8ByteSize < Nat.pow 2 32
  | array items => items.length < Nat.pow 2 32
  | hash pairs => pairs.length < Nat.pow 2 32
  | function r => r.parameters < Nat.pow 2 32 ∧ r.locals < Nat.pow 2 32 ∧ r.code.size < Nat.pow 2 32
  | closure .. | builtin _ => False
  | null | integer _ | float _ | boolean _ => True

def Encodable (v : Value) : Prop := Throughout (fun _ x => x.Writable) v

theorem Encodable.writable {v : Value} (fits : v.Encodable) : v.Writable := fits 0 v (.here v)

theorem encodable_leaf {v : Value} (leaf : v.Leaf) : v.Encodable ↔ v.Writable := throughout_leaf leaf

theorem encodable_array {items : List Value} :
    (array items).Encodable ↔ items.length < Nat.pow 2 32 ∧ ∀ x ∈ items, x.Encodable := throughout_array

theorem encodable_hash {pairs : List (Key × Value)} : (hash pairs).Encodable ↔
    pairs.length < Nat.pow 2 32 ∧ ∀ p ∈ pairs, p.1.toValue.Writable ∧ p.2.Encodable := throughout_hash

-- At most `levels` arrays and hashes are around anything in the value.
def Shallow (levels : Nat) (v : Value) : Prop := Throughout (fun n _ => n ≤ levels) v

end Value

-- A writer puts some bytes behind those already written, unless something does not fit.
def Adds (write : Array UInt8 → Except CodecError (Array UInt8)) (fits : Prop) (bytes : List UInt8) : Prop :=
  ∀ out r, write out = .ok r ↔ fits ∧ r.toList = out.toList ++ bytes

section
variable {write more : Array UInt8 → Except CodecError (Array UInt8)} {fits room : Prop} {bytes back : List UInt8}

theorem Adds.mono (adds : Adds write fits bytes) (same : fits ↔ room) : Adds write room bytes := by
  intro out r
  rw [adds, same]

theorem Adds.of_eq (adds : Adds write fits bytes) (same : ∀ out, more out = write out) : Adds more fits bytes := by
  intro out r
  rw [same, adds]

theorem Adds.next (first : Adds write fits bytes) (second : Adds more room back) :
    Adds (fun out => write out >>= more) (fits ∧ room) (bytes ++ back) := by
  intro out r
  constructor
  · intro both
    simp only [bind, Except.bind] at both
    split at both
    · cases both
    · rename_i middle one
      obtain ⟨fit, here⟩ := (first out middle).mp one
      obtain ⟨fit', there⟩ := (second middle r).mp both
      exact ⟨⟨fit, fit'⟩, by rw [there, here, List.append_assoc]⟩
  · rintro ⟨⟨fit, fit'⟩, there⟩
    have one := (first out ⟨out.toList ++ bytes⟩).mpr ⟨fit, rfl⟩
    have two := (second ⟨out.toList ++ bytes⟩ r).mpr ⟨fit', by rw [there, List.append_assoc]⟩
    simp only [bind, Except.bind, one, two]

theorem Adds.tagged (b : UInt8) (adds : Adds write fits bytes) :
    Adds (fun out => write (out.push b)) fits (b :: bytes) := by
  intro out r
  rw [adds, Array.toList_push, List.append_assoc, List.singleton_append]

end

theorem adds_list (bytes : List UInt8) : Adds (fun out => .ok (out ++ bytes)) True bytes := by
  intro out r
  rw [Except.ok.injEq, ← Array.toList_inj, Array.toList_appendList, eq_comm]
  exact (and_iff_right trivial).symm

theorem adds_array (bytes : Array UInt8) : Adds (fun out => .ok (out ++ bytes)) True bytes.toList := by
  intro out r
  rw [Except.ok.injEq, ← Array.toList_inj, Array.toList_append, eq_comm]
  exact (and_iff_right trivial).symm

theorem adds_nothing : Adds (fun out => .ok out) True [] := by
  intro out r
  rw [Except.ok.injEq, ← Array.toList_inj, List.append_nil, eq_comm]
  exact (and_iff_right trivial).symm

theorem adds_count (what : String) (n : Nat) : Adds (fun out => putCount out what n) (n < Nat.pow 2 32) (bigEndian 4 n) := by
  intro out r
  simp only [putCount, show byteRange 4 = Nat.pow 2 32 from rfl]
  split
  · rename_i fits
    rw [adds_list]
    exact and_congr_left' (iff_of_true trivial fits)
  · rename_i large
    exact iff_of_false nofun fun both => large both.1

theorem Key.adds (k : Key) : Adds (fun out => k.encodeOnto out) k.toValue.Writable k.bytes := by
  cases k with
  | integer n => exact (adds_list _).tagged _
  | boolean b => exact (adds_nothing.tagged _).tagged _
  | string s => exact (((adds_count _ _).next (adds_array _)).tagged _).mono (and_iff_left trivial)

theorem Value.adds_leaf {v : Value} {write : Array UInt8 → Except CodecError (Array UInt8)} {bytes : List UInt8}
    (leaf : v.Leaf) (adds : Adds write v.Writable bytes) : Adds write v.Encodable bytes :=
  adds.mono (encodable_leaf leaf).symm

namespace Value

mutual

theorem adds : ∀ v : Value, Adds (fun out => v.encodeOnto out) v.Encodable v.bytes
  | null => adds_leaf trivial (adds_nothing.tagged _)
  | integer n => adds_leaf trivial (Key.adds (.integer n))
  | float x => adds_leaf trivial ((adds_list _).tagged _)
  | boolean b => adds_leaf trivial (Key.adds (.boolean b))
  | string s => adds_leaf trivial (Key.adds (.string s))
  | array items => by
    have pieces := ((adds_count "array length" items.length).next (adds_items items)).tagged TypeTag.array.byte
    refine (pieces.mono encodable_array.symm).of_eq fun out => ?_
    rw [encodeOnto]
    cases putCount (out.push TypeTag.array.byte) "array length" items.length <;> rfl
  | hash pairs => by
    have pieces := ((adds_count "hash size" pairs.length).next (adds_pairs pairs)).tagged TypeTag.hash.byte
    refine (pieces.mono encodable_hash.symm).of_eq fun out => ?_
    rw [encodeOnto]
    cases putCount (out.push TypeTag.hash.byte) "hash size" pairs.length <;> rfl
  | function r => by
    have pieces := ((adds_count "parameter count" r.parameters).next ((adds_count "local count" r.locals).next
      ((adds_count "instruction length" r.code.size).next (adds_array r.code)))).tagged TypeTag.function.byte
    simp only [and_true] at pieces
    exact adds_leaf trivial pieces
  | closure r captured => fun out r => iff_of_false nofun fun both => both.1.writable
  | builtin b => fun out r => iff_of_false nofun fun both => both.1.writable

theorem adds_items : ∀ items : List Value,
    Adds (fun out => encodeItems out items) (∀ x ∈ items, x.Encodable) (itemsBytes items)
  | [] => adds_nothing.mono (by simp)
  | x :: xs => by
    refine (((adds x).next (adds_items xs)).mono List.forall_mem_cons.symm).of_eq fun out => ?_
    rw [encodeItems]
    cases x.encodeOnto out <;> rfl

theorem adds_pairs : ∀ pairs : List (Key × Value), Adds (fun out => encodePairs out pairs)
    (∀ p ∈ pairs, p.1.toValue.Writable ∧ p.2.Encodable) (pairsBytes pairs)
  | [] => adds_nothing.mono (by simp)
  | (k, x) :: ps => by
    have pieces := k.adds.next ((adds x).next (adds_pairs ps))
    refine (pieces.mono ?_).of_eq fun out => ?_
    · rw [List.forall_mem_cons, and_assoc]
    · rw [encodePairs]
      cases k.encodeOnto out with
      | error e => rfl
      | ok middle => cases known : x.encodeOnto middle <;> simp only [bind, Except.bind, known]

end

end Value

-- Reading back.

namespace Decode

section
variable {α β : Type}

-- A reader gets a value back from some bytes, or finds that it lies too deep.
structure Regains (x : Reading α) (bytes : List UInt8) (v : α) (shallow : Prop) : Prop where
  reads (room : shallow) (rest : List UInt8) : x (bytes ++ rest) = .ok (v, rest)
  fails (deep : ¬ shallow) : ∃ tag, ∀ rest, x (bytes ++ rest) = .error (.malformed tag "nesting too deep")

theorem Regains.mono {x : Reading α} {bytes : List UInt8} {v : α} {shallow room : Prop} (regains : Regains x bytes v shallow)
    (same : shallow ↔ room) : Regains x bytes v room := by
  rw [← same]
  exact regains

theorem pure_regains (v : α) : Regains (pure v) [] v True := ⟨fun _ _ => rfl, fun deep => absurd trivial deep⟩

theorem bind_regains {x : Reading α} {f : α → Reading β} {front back : List UInt8} {u : α} {v : β} {shallow room : Prop}
    (first : Regains x front u shallow) (second : Regains (f u) back v room) :
    Regains (x >>= f) (front ++ back) v (shallow ∧ room) := by
  refine ⟨fun both rest => ?_, fun deep => ?_⟩
  · rw [List.append_assoc, bind_reads (first.reads both.1 _)]
    exact second.reads both.2 rest
  · by_cases inside : shallow
    · obtain ⟨tag, fails⟩ := second.fails fun more => deep ⟨inside, more⟩
      refine ⟨tag, fun rest => ?_⟩
      rw [List.append_assoc, bind_reads (first.reads inside _)]
      exact fails rest
    · obtain ⟨tag, fails⟩ := first.fails inside
      refine ⟨tag, fun rest => ?_⟩
      rw [List.append_assoc]
      simp only [bind, StateT.bind, Except.bind, fails]

theorem bind_flat {x : Reading α} {f : α → Reading β} {front back : List UInt8} {u : α} {v : β} {shallow : Prop}
    (first : Regains x front u True) (second : Regains (f u) back v shallow) :
    Regains (x >>= f) (front ++ back) v shallow :=
  (bind_regains first second).mono (and_iff_right trivial)

theorem bind_last {x : Reading α} {f : α → Reading β} {bytes : List UInt8} {u : α} {v : β} {shallow : Prop}
    (first : Regains x bytes u shallow) (second : Regains (f u) [] v True) : Regains (x >>= f) bytes v shallow := by
  have whole := (bind_regains first second).mono (and_iff_left trivial)
  rwa [List.append_nil] at whole

end

theorem take_regains (tag : TypeTag) (bytes : List UInt8) : Regains (take tag bytes.length) bytes bytes True := by
  refine ⟨fun _ rest => ?_, fun deep => absurd trivial deep⟩
  rw [take, List.take_left, List.drop_left, if_pos rfl]

theorem foldl_bigEndian (width n m : Nat) :
    (bigEndian width n).foldl (fun n b => 256 * n + b.toNat) m = byteRange width * m + n % byteRange width := by
  induction width generalizing m with
  | zero => simp [bigEndian, byteRange, Nat.mod_one]
  | succ width ih =>
    have digit : (n / byteRange width).toUInt8.toNat = n / byteRange width % 256 := by
      simp [Nat.toUInt8, UInt8.toNat_ofNat']
    rw [bigEndian, List.foldl_cons, ih, digit, byteRange, Nat.mod_mul, Nat.mul_add, ← Nat.mul_assoc]
    omega

theorem ofBigEndian_bigEndian {width n : Nat} (fits : n < byteRange width) : ofBigEndian (bigEndian width n) = n := by
  rw [ofBigEndian, foldl_bigEndian, Nat.mul_zero, Nat.zero_add, Nat.mod_eq_of_lt fits]

theorem number_regains (tag : TypeTag) {width n : Nat} (fits : n < byteRange width) :
    Regains (number tag width) (bigEndian width n) n True := by
  have taken := take_regains tag (bigEndian width n)
  rw [length_bigEndian] at taken
  refine bind_last taken ?_
  rw [ofBigEndian_bigEndian fits]
  exact pure_regains n

theorem nested_tagged {levels : Nat} (tag : TypeTag) {bytes : List UInt8} {v : Value} {shallow : Prop}
    (regains : Regains (payload (element levels tag) tag) bytes v shallow) :
    Regains (nested levels) (tag.byte :: bytes) v shallow := by
  refine ⟨fun room rest => ?_, fun deep => ?_⟩
  · rw [List.cons_append, nested_cons (TypeTag.ofByte_byte tag)]
    exact regains.reads room rest
  · obtain ⟨other, fails⟩ := regains.fails deep
    refine ⟨other, fun rest => ?_⟩
    rw [List.cons_append, nested_cons (TypeTag.ofByte_byte tag)]
    exact fails rest

theorem fromUTF8?_toUTF8 (s : String) : String.fromUTF8? s.toUTF8 = some s := by
  rw [String.fromUTF8?, dif_pos (show s.toUTF8.IsValidUTF8 from s.isValidUTF8)]
  rfl

theorem key_regains (levels : Nat) {k : Key} (fits : k.toValue.Writable) :
    Regains (nested levels) k.bytes k.toValue True := by
  cases k with
  | integer n =>
    refine nested_tagged .integer (bind_last (number_regains _ n.toUInt32.toNat_lt) ?_)
    rw [Nat.toUInt32_eq, UInt32.ofNat_toNat, Int32.toInt32_toUInt32]
    exact pure_regains _
  | boolean b =>
    cases b with
    | false => exact nested_tagged .boolean (bind_last (number_regains _ (show 0 < byteRange 1 by decide)) (pure_regains _))
    | true => exact nested_tagged .boolean (bind_last (number_regains _ (show 1 < byteRange 1 by decide)) (pure_regains _))
  | string s =>
    have read := take_regains .string s.toUTF8.data.toList
    rw [show s.toUTF8.data.toList.length = s.utf8ByteSize by simp] at read
    refine nested_tagged .string (bind_flat (number_regains _ fits) (bind_last read ?_))
    rw [Array.toArray_toList, fromUTF8?_toUTF8]
    exact pure_regains _

-- With no level left nothing is read inside an array or a hash, be it as flat as can be.
theorem element_regains {x : Value} (each : ∀ levels, Regains (nested levels) x.bytes x.normal (x.Shallow levels))
    (levels : Nat) (tag : TypeTag) :
    Regains (element levels tag) x.bytes x.normal (x.Throughout fun n _ => n + 1 ≤ levels) := by
  cases levels with
  | zero => exact ⟨fun room => absurd (room 0 x (.here x)) (Nat.not_succ_le_zero 0), fun _ => ⟨tag, fun _ => rfl⟩⟩
  | succ levels =>
    refine (each levels).mono ?_
    simp only [Value.Shallow, Nat.succ_le_succ_iff]

theorem element_key (levels : Nat) (tag : TypeTag) {k : Key} (fits : k.toValue.Writable) :
    Regains (element levels tag) k.bytes k.toValue (1 ≤ levels) := by
  cases levels with
  | zero => exact ⟨fun room => absurd room (Nat.not_succ_le_zero 0), fun _ => ⟨tag, fun _ => rfl⟩⟩
  | succ levels => exact (key_regains levels fits).mono (iff_of_true trivial (Nat.succ_pos levels))

end Decode

namespace Value
open Decode

theorem regains_leaf {v w : Value} {x : Reading Value} {bytes : List UInt8} {levels : Nat} (leaf : v.Leaf)
    (regains : Regains x bytes w True) : Regains x bytes w (v.Shallow levels) :=
  regains.mono ((throughout_leaf leaf).trans (iff_of_true (Nat.zero_le levels) trivial)).symm

mutual

theorem regains : ∀ (v : Value) (levels : Nat), v.Encodable → Regains (nested levels) v.bytes v.normal (v.Shallow levels)
  | null, levels, _ => regains_leaf trivial (nested_tagged .null (pure_regains _))
  | integer n, levels, _ => regains_leaf trivial (key_regains levels (k := .integer n) trivial)
  | boolean b, levels, _ => regains_leaf trivial (key_regains levels (k := .boolean b) trivial)
  | string s, levels, fits => regains_leaf trivial (key_regains levels (k := .string s) fits.writable)
  | float x, levels, _ => by
    refine regains_leaf trivial (nested_tagged .float (bind_last (number_regains _ x.bits.toNat_lt) ?_))
    rw [Nat.toUInt64_eq, UInt64.ofNat_toNat]
    exact pure_regains _
  | array items, levels, fits => by
    obtain ⟨size, each⟩ := encodable_array.mp fits
    refine Regains.mono (nested_tagged .array (bind_flat (number_regains _ size)
      (bind_last (items_regains items levels .array [] each) (pure_regains _)))) ?_
    rw [Shallow, throughout_array]
    exact (and_iff_right (Nat.zero_le levels)).symm
  | hash pairs, levels, fits => by
    obtain ⟨size, each⟩ := encodable_hash.mp fits
    refine Regains.mono (nested_tagged .hash (bind_flat (number_regains _ size)
      (bind_last (pairs_regains pairs levels [] each) (pure_regains _)))) ?_
    rw [Shallow, throughout_hash]
    exact (and_iff_right (Nat.zero_le levels)).symm
  | function r, levels, fits => by
    obtain ⟨parameters, locals, size⟩ : r.parameters < Nat.pow 2 32 ∧ r.locals < Nat.pow 2 32 ∧ r.code.size < Nat.pow 2 32 := fits.writable
    have read := take_regains .function r.code.toList
    rw [Array.length_toList] at read
    exact regains_leaf trivial (nested_tagged .function (bind_flat (number_regains _ parameters)
      (bind_flat (number_regains _ locals) (bind_flat (number_regains _ size) (bind_last read (pure_regains _))))))
  | closure .., _, fits | builtin _, _, fits => fits.writable.elim

theorem items_regains : ∀ (xs : List Value) (levels : Nat) (tag : TypeTag) (read : List Value), (∀ x ∈ xs, x.Encodable) →
    Regains (items (element levels tag) xs.length read) (itemsBytes xs) (read.reverse ++ normalItems xs)
      (∀ x ∈ xs, x.Throughout fun n _ => n + 1 ≤ levels)
  | [], levels, tag, read, _ => by
    rw [normalItems, List.append_nil]
    exact (pure_regains read.reverse).mono (by simp)
  | x :: xs, levels, tag, read, fits => by
    obtain ⟨one, others⟩ := List.forall_mem_cons.mp fits
    have first := element_regains (fun levels => regains x levels one) levels tag
    have rest := items_regains xs levels tag (x.normal :: read) others
    rw [List.reverse_cons, List.append_assoc, List.singleton_append] at rest
    exact (bind_regains first rest).mono List.forall_mem_cons.symm

theorem pairs_regains : ∀ (ps : List (Key × Value)) (levels : Nat) (read : List (Key × Value)),
    (∀ p ∈ ps, p.1.toValue.Writable ∧ p.2.Encodable) →
    Regains (pairs (element levels .hash) ps.length read) (pairsBytes ps) (inserted (normalPairs ps) read)
      (∀ p ∈ ps, 1 ≤ levels ∧ p.2.Throughout fun n _ => n + 1 ≤ levels)
  | [], levels, read, _ => (pure_regains read).mono (by simp)
  | (k, x) :: ps, levels, read, fits => by
    obtain ⟨⟨key, one⟩, others⟩ := List.forall_mem_cons.mp fits
    have first := element_regains (fun levels => regains x levels one) levels .hash
    have rest := pairs_regains ps levels (insert k x.normal read) others
    refine Regains.mono (bind_regains (element_key levels .hash key) ?_) (by rw [List.forall_mem_cons, and_assoc])
    rw [Value.key?_toValue]
    exact bind_regains first rest

end

theorem writable_arranges {v w : Value} (arranged : v.Arranges w) : v.Writable ↔ w.Writable := by
  cases v with
  | array items =>
    rw [Arranges] at arranged
    obtain ⟨written, rfl, arranged⟩ := arranged
    simp only [Writable, length_items arranged]
  | hash pairs =>
    rw [Arranges] at arranged
    obtain ⟨arranged, written, rfl, pairwise, perm⟩ := arranged
    simp only [Writable, length_pairs pairwise, perm.length_eq]
  | null | integer | float | boolean | string | function | closure | builtin =>
    cases arranged
    exact .rfl

-- Any order in which the pairs of hashes are written gives an encoding exactly when the value has no closure and no
-- native function in it and all its sizes take four bytes. Whatever follows the encoding, the value is read back from it
-- when at most as many arrays and hashes as may are around anything in it, and is found to lie too deep otherwise.
theorem decode_encode (v w : Value) (ordered : v.Ordered) (arranged : v.Arranges w) :
    ((∃ bytes, w.encode = .ok bytes) ↔ v.Encodable) ∧ ∀ bytes, w.encode = .ok bytes → ∀ rest,
      (v.Shallow 512 → Decode.value (bytes.toList ++ rest) = .ok (v, rest)) ∧
      (¬ v.Shallow 512 → ∃ tag, Decode.value (bytes.toList ++ rest) = .error (.malformed tag "nesting too deep")) := by
  have fits : v.Encodable ↔ w.Encodable := throughout_arranges (fun _ _ _ => writable_arranges) arranged
  have shallow : v.Shallow 512 ↔ w.Shallow 512 := throughout_arranges (fun _ _ _ _ => .rfl) arranged
  refine ⟨?_, fun bytes encoded rest => ?_⟩
  · constructor
    · rintro ⟨bytes, encoded⟩
      exact fits.mpr ((w.adds #[] bytes).mp encoded).1
    · intro inside
      exact ⟨_, (w.adds #[] ⟨w.bytes⟩).mpr ⟨fits.mp inside, rfl⟩⟩
  · obtain ⟨inside, written⟩ := (w.adds #[] bytes).mp encoded
    have regains := w.regains 512 inside
    rw [normal_eq ordered arranged] at regains
    rw [show bytes.toList = w.bytes from written, shallow]
    refine ⟨fun room => regains.reads room rest, fun deep => ?_⟩
    obtain ⟨tag, fails⟩ := regains.fails deep
    exact ⟨tag, fails rest⟩

-- The pairs of the hash inside are written the other way round.
theorem decode_encode_swapped :
    let v := array [hash [(.integer 1, array []), (.boolean true, null)]]
    let w := array [hash [(.boolean true, null), (.integer 1, array [])]]
    v.Ordered ∧ v.Arranges w ∧ ∃ bytes, w.encode = .ok bytes ∧ Decode.value (bytes.toList ++ [9]) = .ok (v, [9]) := by
  intro v w
  have leaf : null.Leaf := trivial
  have ordered : v.Ordered := by
    simp [v, Ordered, throughout_array, throughout_hash, throughout_leaf leaf, Rising, Key.compare, Key.toValue]
  have arranged : v.Arranges w :=
    ⟨_, rfl, _, [], rfl, ⟨[(.integer 1, array []), (.boolean true, null)], _, rfl,
      ⟨_, _, rfl, ⟨[], rfl, rfl⟩, _, [], rfl, rfl, rfl⟩, .swap ..⟩, rfl⟩
  have shallow : v.Shallow 512 := by
    simp [v, Shallow, throughout_array, throughout_hash, throughout_leaf leaf]
  refine ⟨ordered, arranged, _, rfl, ?_⟩
  exact ((decode_encode v w ordered arranged).2 _ rfl [9]).1 shallow

end Value
end StackScript
