import StackScript.Proofs.Code.Digits
import StackScript.Proofs.Codec.RoundTrip

-- What decoding makes of any bytes it accepts is a value with an encoding of its own, no longer than the bytes. Only a hash
-- can have been written in other ways: with its pairs in another order, or with one key in several pairs.
namespace StackScript

theorem TypeTag.byte_ofByte {b : UInt8} {tag : TypeTag} (known : ofByte b = .ok tag) : tag.byte = b := by
  have each : ∀ i : Fin all.size, (all[i]).byte.toNat = i := by decide
  unfold ofByte at known
  split at known
  · rename_i found
    cases known
    obtain ⟨below, rfl⟩ := Array.getElem?_eq_some_iff.mp found
    exact UInt8.toNat_inj.mp (each ⟨b.toNat, below⟩)
  · cases known

namespace Value

def Hashless (v : Value) : Prop := Throughout (fun _ x => ∀ pairs, x ≠ hash pairs) v

-- What is known of a value read from some bytes, with so many arrays and hashes around its parts.
structure Read (deep : Nat → Prop) (v : Value) (front : List UInt8) : Prop where
  ordered : v.Ordered
  encodable : v.Encodable
  shallow : v.Throughout fun n _ => deep n
  shorter : v.bytes.length ≤ front.length
  exact : v.Hashless → v.bytes = front

variable {deep : Nat → Prop}

theorem read_leaf {v : Value} {front : List UInt8} (leaf : v.Leaf) (writable : v.Writable) (top : deep 0)
    (written : v.bytes = front) : v.Read deep front := by
  refine ⟨(throughout_leaf leaf).mpr fun pairs same => ?_, (encodable_leaf leaf).mpr writable,
    (throughout_leaf leaf).mpr top, Nat.le_of_eq (congrArg List.length written), fun _ => written⟩
  rw [same] at leaf
  exact leaf.elim

theorem hashless_array {items : List Value} : (array items).Hashless ↔ ∀ x ∈ items, x.Hashless := by
  simp [Hashless, throughout_array]

theorem hashless_hash {pairs : List (Key × Value)} : ¬ (hash pairs).Hashless := fun hashless => hashless 0 _ (.here _) pairs rfl

theorem length_insert (k : Key) (v : Value) (pairs : List (Key × Value)) : (insert k v pairs).length ≤ pairs.length + 1 := by
  induction pairs with
  | nil => exact Nat.le_refl 1
  | cons p rest ih =>
    unfold insert
    split
    · exact Nat.le_refl _
    · exact Nat.le_succ _
    · exact Nat.succ_le_succ ih

theorem length_pairsBytes_insert (k : Key) (v : Value) (pairs : List (Key × Value)) :
    (pairsBytes (insert k v pairs)).length ≤ k.bytes.length + v.bytes.length + (pairsBytes pairs).length := by
  induction pairs with
  | nil => simp [insert, pairsBytes]
  | cons p rest ih =>
    unfold insert
    split <;> simp only [pairsBytes, List.length_append] at ih ⊢ <;> omega

end Value

namespace Decode

section
variable {α β : Type}

-- Whenever the reader succeeds, its result is as wanted with the bytes it took for it.
def Yields (x : Reading α) (P : α → List UInt8 → Prop) : Prop :=
  ∀ bytes v rest, x bytes = .ok (v, rest) → ∃ front, bytes = front ++ rest ∧ P v front

variable {x : Reading α} {P : α → List UInt8 → Prop} {Q : β → List UInt8 → Prop}

theorem yields_pure {v : α} (here : P v []) : Yields (pure v) P := by
  intro bytes u rest read
  cases read
  exact ⟨[], rfl, here⟩

theorem yields_throw (e : CodecError) : Yields (throw e) P := by
  intro bytes v rest read
  cases read

theorem yields_bind {f : α → Reading β} (first : Yields x P)
    (second : ∀ u front, P u front → Yields (f u) fun v back => Q v (front ++ back)) : Yields (x >>= f) Q := by
  intro bytes v rest read
  obtain ⟨u, middle, one, two⟩ := bind_ok.mp read
  obtain ⟨front, rfl, here⟩ := first bytes u middle one
  obtain ⟨back, rfl, there⟩ := second u front here middle v rest two
  exact ⟨front ++ back, (List.append_assoc ..).symm, there⟩

end

theorem take_yields (tag : TypeTag) (n : Nat) : Yields (take tag n) fun taken front => taken = front ∧ front.length = n := by
  intro bytes v rest read
  unfold take at read
  simp only at read
  split at read
  · rename_i length
    cases read
    exact ⟨bytes.take n, (List.take_append_drop n bytes).symm, rfl, length⟩
  · cases read

theorem number_yields (tag : TypeTag) (width : Nat) :
    Yields (number tag width) fun n front => n < byteRange width ∧ front = bigEndian width n := by
  refine yields_bind (take_yields tag width) fun taken front here => yields_pure ?_
  obtain ⟨rfl, rfl⟩ := here
  exact ⟨ofBigEndian_lt taken, by simp only [List.append_nil, bigEndian_ofBigEndian]⟩

open Value

def Part (levels : Nat) (v : Value) (front : List UInt8) : Prop := v.Read (fun n => n + 1 ≤ levels) front

section
variable {element : Reading Value} {levels : Nat}

theorem items_yields (each : Yields element (Part levels)) (n : Nat) (read : List Value) :
    Yields (items element n read) fun vs front => ∃ xs, vs = read.reverse ++ xs ∧ xs.length = n ∧
      (∀ x ∈ xs, x.Ordered ∧ x.Encodable ∧ x.Throughout fun n _ => n + 1 ≤ levels) ∧
      (itemsBytes xs).length ≤ front.length ∧ ((∀ x ∈ xs, x.Hashless) → itemsBytes xs = front) := by
  induction n generalizing read with
  | zero => exact yields_pure ⟨[], by simp [itemsBytes]⟩
  | succ n ih =>
    refine yields_bind each fun v front one bytes vs rest read => ?_
    obtain ⟨back, rfl, xs, rfl, count, all, shorter, exact⟩ := ih _ bytes vs rest read
    refine ⟨back, rfl, v :: xs, by simp, congrArg Nat.succ count, ?_, ?_, fun hashless => ?_⟩
    · exact List.forall_mem_cons.mpr ⟨⟨one.ordered, one.encodable, one.shallow⟩, all⟩
    · simp only [itemsBytes, List.length_append]
      exact Nat.add_le_add one.shorter shorter
    · obtain ⟨here, others⟩ := List.forall_mem_cons.mp hashless
      simp only [itemsBytes, one.exact here, exact others]

theorem bytes_toValue (k : Key) : k.toValue.bytes = k.bytes := by cases k <;> rfl

structure PairPart (levels : Nat) (p : Key × Value) : Prop where
  encodable : p.1.toValue.Writable ∧ p.2.Encodable
  ordered : p.2.Ordered
  shallow : 1 ≤ levels ∧ p.2.Throughout fun n _ => n + 1 ≤ levels

-- A pair with a key that was there takes the place of the older one, so that there may be fewer pairs than were read.
theorem pairs_yields (each : Yields element (Part levels)) (n : Nat) {read : List (Key × Value)} (rising : Rising read)
    (known : ∀ p ∈ read, PairPart levels p) :
    Yields (pairs element n read) fun ps front => Rising ps ∧ (∀ p ∈ ps, PairPart levels p) ∧
      ps.length ≤ read.length + n ∧ (pairsBytes ps).length ≤ (pairsBytes read).length + front.length := by
  induction n generalizing read with
  | zero => exact yields_pure ⟨rising, known, Nat.le_refl _, Nat.le_refl _⟩
  | succ n ih =>
    refine yields_bind each fun key front one => ?_
    cases found : key.key? with
    | none => exact yields_throw _
    | some k =>
      cases Value.key?_eq found
      refine yields_bind each fun v middle two bytes ps rest result => ?_
      have kept : ∀ p ∈ insert k v read, PairPart levels p := by
        intro p present
        rcases insert_keys present with rfl | present
        · exact ⟨⟨one.encodable.writable, two.encodable⟩, two.ordered, one.shallow 0 _ (.here _), two.shallow⟩
        · exact known p present
      obtain ⟨back, rfl, up, all, count, shorter⟩ := ih (insert_rising k v rising) kept bytes ps rest result
      have most := length_insert k v read
      have more := length_pairsBytes_insert k v read
      have first := one.shorter
      have second := two.shorter
      simp only [bytes_toValue] at first
      refine ⟨back, rfl, up, all, by omega, ?_⟩
      simp only [List.length_append]
      omega

theorem string_read {text : List UInt8} {s : String} (known : String.fromUTF8? ⟨text.toArray⟩ = some s) :
    s.toUTF8.data.toList = text := by
  unfold String.fromUTF8? at known
  split at known
  · cases known
    rfl
  · cases known

theorem payload_yields (each : Yields element (Part levels)) (tag : TypeTag) :
    Yields (payload element tag) fun v front => v.Read (· ≤ levels) (tag.byte :: front) := by
  cases tag with
  | null => exact yields_pure (read_leaf trivial trivial (Nat.zero_le _) rfl)
  | integer =>
    refine yields_bind (number_yields _ 4) fun n front here => yields_pure ?_
    obtain ⟨small, rfl⟩ := here
    refine read_leaf trivial trivial (Nat.zero_le _) ?_
    have value : n.toUInt32.toInt32.toUInt32.toNat = n := UInt32.toNat_ofNat_of_lt small
    simp only [Value.bytes, Key.bytes, value, List.append_nil]
  | float =>
    refine yields_bind (number_yields _ 8) fun n front here => yields_pure ?_
    obtain ⟨small, rfl⟩ := here
    refine read_leaf trivial trivial (Nat.zero_le _) ?_
    have value : n.toUInt64.toNat = n := UInt64.toNat_ofNat_of_lt small
    simp only [Value.bytes, value, List.append_nil]
  | boolean =>
    refine yields_bind (number_yields _ 1) fun n front here => ?_
    obtain ⟨-, rfl⟩ := here
    split
    · exact yields_pure (read_leaf trivial trivial (Nat.zero_le _) rfl)
    · exact yields_pure (read_leaf trivial trivial (Nat.zero_le _) rfl)
    · exact yields_throw _
  | string =>
    refine yields_bind (number_yields _ 4) fun n front here => yields_bind (take_yields _ n) fun text back taken => ?_
    obtain ⟨small, rfl⟩ := here
    obtain ⟨rfl, rfl⟩ := taken
    split
    · rename_i s known
      have written := string_read known
      have size : s.utf8ByteSize = text.length := by
        rw [← written]
        simp
      refine yields_pure (read_leaf trivial ?_ (Nat.zero_le _) ?_)
      · exact Nat.lt_of_le_of_lt (Nat.le_of_eq size) small
      · simp only [Value.bytes, Key.bytes, size, written, List.append_nil]
    · exact yields_throw _
  | array =>
    refine yields_bind (number_yields _ 4) fun n front here => yields_bind (items_yields each n []) fun vs back read =>
      yields_pure ?_
    obtain ⟨small, rfl⟩ := here
    obtain ⟨xs, rfl, rfl, all, shorter, exact⟩ := read
    simp only [List.append_nil]
    refine ⟨ordered_array.mpr fun x present => (all x present).1, encodable_array.mpr ⟨small, fun x present => (all x present).2.1⟩,
      throughout_array.mpr ⟨Nat.zero_le _, fun x present => (all x present).2.2⟩, ?_, fun hashless => ?_⟩
    · simpa [Value.bytes] using shorter
    · simp only [Value.bytes, exact (hashless_array.mp hashless)]
  | hash =>
    refine yields_bind (number_yields _ 4) fun n front here => yields_bind (pairs_yields each n .nil (by simp))
      fun ps back read => yields_pure ?_
    obtain ⟨small, rfl⟩ := here
    obtain ⟨rising, all, count, shorter⟩ := read
    simp only [List.append_nil]
    refine ⟨ordered_hash.mpr ⟨rising, fun p present => (all p present).ordered⟩,
      encodable_hash.mpr ⟨?_, fun p present => (all p present).encodable⟩,
      throughout_hash.mpr ⟨Nat.zero_le _, fun p present => (all p present).shallow⟩, ?_,
      fun hashless => (hashless_hash hashless).elim⟩
    · exact Nat.lt_of_le_of_lt (by simpa using count) small
    · simpa [Value.bytes, pairsBytes] using shorter
  | function =>
    refine yields_bind (number_yields _ 4) fun parameters front here => yields_bind (number_yields _ 4) fun locals middle there =>
      yields_bind (number_yields _ 4) fun n back size => yields_bind (take_yields _ n) fun code last taken => yields_pure ?_
    obtain ⟨few, rfl⟩ := here
    obtain ⟨fits, rfl⟩ := there
    obtain ⟨small, rfl⟩ := size
    obtain ⟨rfl, rfl⟩ := taken
    refine read_leaf trivial ⟨few, fits, small⟩ (Nat.zero_le _) ?_
    simp only [Value.bytes, List.size_toArray, List.append_nil]

end

theorem nested_yields_of_element {levels : Nat} (each : ∀ tag, Yields (element levels tag) (Part levels)) :
    Yields (nested levels) fun v front => v.Read (· ≤ levels) front := by
  intro bytes v rest read
  cases bytes with
  | nil =>
    unfold nested at read
    cases read
  | cons b bytes =>
    cases known : TypeTag.ofByte b with
    | error e =>
      unfold nested at read
      simp only [known] at read
      cases read
    | ok tag =>
      cases TypeTag.byte_ofByte known
      rw [nested_cons known] at read
      obtain ⟨front, rfl, here⟩ := payload_yields (each tag) tag bytes v rest read
      exact ⟨tag.byte :: front, rfl, here⟩

theorem nested_yields (levels : Nat) : Yields (nested levels) fun v front => v.Read (· ≤ levels) front := by
  induction levels with
  | zero => exact nested_yields_of_element fun tag => yields_throw _
  | succ levels ih =>
    refine nested_yields_of_element fun tag bytes v rest read => ?_
    obtain ⟨front, whole, here⟩ := ih bytes v rest read
    refine ⟨front, whole, here.ordered, here.encodable, ?_, here.shorter, here.exact⟩
    simp only [Nat.succ_le_succ_iff]
    exact here.shallow

end Decode

namespace Value

mutual

theorem arranges_refl : ∀ v : Value, v.Arranges v
  | array items => ⟨items, rfl, arrangesItems_refl items⟩
  | hash pairs => ⟨pairs, pairs, rfl, arrangesPairs_refl pairs, .refl _⟩
  | null | integer _ | float _ | boolean _ | string _ | function _ | closure .. | builtin _ => rfl

theorem arrangesItems_refl : ∀ items : List Value, ArrangesItems items items
  | [] => rfl
  | x :: xs => ⟨x, xs, rfl, arranges_refl x, arrangesItems_refl xs⟩

theorem arrangesPairs_refl : ∀ pairs : List (Key × Value), ArrangesPairs pairs pairs
  | [] => rfl
  | (_, x) :: ps => ⟨x, ps, rfl, arranges_refl x, arrangesPairs_refl ps⟩

end

theorem pairsBytes_eq (pairs : List (Key × Value)) : pairsBytes pairs = pairs.flatMap fun p => p.1.bytes ++ p.2.bytes := by
  induction pairs with
  | nil => rfl
  | cons p rest ih => simp only [pairsBytes, ih, List.flatMap_cons, List.append_assoc]

mutual

theorem length_bytes_arranges : ∀ {v w : Value}, v.Arranges w → w.bytes.length = v.bytes.length
  | array items, w, arranged => by
    rw [Arranges] at arranged
    obtain ⟨written, rfl, arranged⟩ := arranged
    simp only [bytes, List.length_cons, List.length_append, length_bigEndian, length_itemsBytes arranged]
  | hash pairs, w, arranged => by
    rw [Arranges] at arranged
    obtain ⟨arranged, written, rfl, pairwise, perm⟩ := arranged
    have same : (pairsBytes written).length = (pairsBytes arranged).length := by
      simp only [pairsBytes_eq]
      exact (perm.flatMap_right _).length_eq.symm
    simp only [bytes, List.length_cons, List.length_append, length_bigEndian, same, length_pairsBytes pairwise]
  | null, _, rfl | integer _, _, rfl | float _, _, rfl | boolean _, _, rfl
  | string _, _, rfl | function _, _, rfl | closure .., _, rfl | builtin _, _, rfl => rfl

theorem length_itemsBytes : ∀ {items written : List Value}, ArrangesItems items written →
    (itemsBytes written).length = (itemsBytes items).length
  | [], _, arranged => by
    rw [ArrangesItems] at arranged
    rw [arranged]
  | x :: xs, _, arranged => by
    rw [ArrangesItems] at arranged
    obtain ⟨y, ys, rfl, first, rest⟩ := arranged
    simp only [itemsBytes, List.length_append, length_bytes_arranges first, length_itemsBytes rest]

theorem length_pairsBytes : ∀ {pairs written : List (Key × Value)}, ArrangesPairs pairs written →
    (pairsBytes written).length = (pairsBytes pairs).length
  | [], _, arranged => by
    rw [ArrangesPairs] at arranged
    rw [arranged]
  | (k, x) :: ps, _, arranged => by
    rw [ArrangesPairs] at arranged
    obtain ⟨y, qs, rfl, first, rest⟩ := arranged
    simp only [pairsBytes, List.length_append, length_bytes_arranges first, length_pairsBytes rest]

end

theorem encode_bytes {v : Value} (fits : v.Encodable) : v.encode = .ok v.bytes.toArray :=
  (v.adds #[] v.bytes.toArray).mpr ⟨fits, rfl⟩

-- A decoded value has an encoding: without a hash in it, just the bytes it was decoded from. Any order in which the pairs
-- of hashes are written gives one that is decoded to the value again, with nothing left, and is no longer than those bytes.
theorem encode_decoded {bytes rest : List UInt8} {v : Value} (read : Decode.value bytes = .ok (v, rest)) :
    ∃ n ≤ bytes.length, rest = bytes.drop n ∧ (∃ written, v.encode = .ok written) ∧
      (v.Hashless → v.encode = .ok (bytes.take n).toArray) ∧
      ∀ w, v.Arranges w → ∃ written, w.encode = .ok written ∧ Decode.value written.toList = .ok (v, []) ∧ written.size ≤ n := by
  obtain ⟨front, rfl, known⟩ := Decode.nested_yields Decode.maxNesting bytes v rest read
  refine ⟨front.length, ?_, List.drop_left.symm, ⟨_, encode_bytes known.encodable⟩, fun hashless => ?_, fun w arranged => ?_⟩
  · simp only [List.length_append, Nat.le_add_right]
  · rw [encode_bytes known.encodable, known.exact hashless, List.take_left]
  · have fits : w.Encodable := (throughout_arranges (fun _ _ _ => writable_arranges) arranged).mp known.encodable
    have shallow : w.Shallow Decode.maxNesting := (throughout_arranges (fun _ _ _ _ => .rfl) arranged).mp known.shallow
    have again := (w.regains Decode.maxNesting fits).reads shallow []
    rw [List.append_nil, normal_eq known.ordered arranged] at again
    refine ⟨w.bytes.toArray, encode_bytes fits, again, ?_⟩
    rw [List.size_toArray, length_bytes_arranges arranged]
    exact known.shorter

-- Three pairs are read, two of them with one key. The hash that comes of them has two, and is written the other way round.
theorem encode_decoded_repeated :
    let bytes := [6, 0, 0, 0, 3, 3, 1, 0, 1, 0, 0, 0, 1, 0, 3, 1, 5, 0, 0, 0, 0, 9]
    let v := hash [(.integer 1, null), (.boolean true, array [])]
    let w := hash [(.boolean true, array []), (.integer 1, null)]
    Decode.value bytes = .ok (v, [9]) ∧ v.Arranges w ∧
      ∃ written, w.encode = .ok written ∧ Decode.value written.toList = .ok (v, []) ∧ written.size ≤ 21 := by
  intro bytes v w
  have read : Decode.value bytes = .ok (v, [9]) := rfl
  have arranged : v.Arranges w :=
    ⟨[(.integer 1, null), (.boolean true, array [])], _, rfl, ⟨_, _, rfl, rfl, _, [], rfl, ⟨[], rfl, rfl⟩, rfl⟩, .swap ..⟩
  obtain ⟨n, -, left, -, -, each⟩ := encode_decoded read
  obtain ⟨written, encoded, again, size⟩ := each w arranged
  have length := congrArg List.length left
  simp only [List.length_drop, List.length_cons, List.length_nil, bytes] at length
  exact ⟨read, arranged, written, encoded, again, by omega⟩

end Value
end StackScript
