import StackScript.Codec.Encode

-- What stands inside a value and how deep, and the orders in which the pairs of a hash can be written.
namespace StackScript

namespace Key

theorem compare_eq {k l : Key} : k.compare l = .eq ↔ k = l := by
  cases k <;> cases l <;> simp [compare, Int32.toInt_inj]

theorem compare_swap (k l : Key) : l.compare k = (k.compare l).swap := by
  cases k <;> cases l <;> simp [compare, ← Std.OrientedCmp.eq_swap]

theorem compare_trans {k l m : Key} (left : k.compare l = .lt) (right : l.compare m = .lt) : k.compare m = .lt := by
  cases k <;> cases l <;> cases m <;> simp_all only [compare, reduceCtorEq] <;> exact Std.TransCmp.lt_trans left right

end Key

namespace Value

def Rising (pairs : List (Key × Value)) : Prop := pairs.Pairwise fun p q => p.1.compare q.1 = .lt

theorem insert_keys {k : Key} {v : Value} {pairs : List (Key × Value)} {p : Key × Value} (present : p ∈ insert k v pairs) :
    p = (k, v) ∨ p ∈ pairs := by
  induction pairs with
  | nil => exact .inl (List.mem_singleton.mp present)
  | cons q rest ih =>
    rw [insert] at present
    cases order : k.compare q.1 with
    | lt =>
      simp only [order, List.mem_cons] at present
      simpa only [List.mem_cons] using present
    | eq =>
      simp only [order, List.mem_cons] at present
      exact present.imp_right (List.mem_cons_of_mem q)
    | gt =>
      simp only [order, List.mem_cons] at present
      rcases present with rfl | present
      · exact .inr List.mem_cons_self
      · exact (ih present).imp_right (List.mem_cons_of_mem q)

theorem insert_rising (k : Key) (v : Value) {pairs : List (Key × Value)} (rising : Rising pairs) :
    Rising (insert k v pairs) := by
  induction pairs with
  | nil => exact List.pairwise_singleton _ _
  | cons q rest ih =>
    obtain ⟨first, rest_rising⟩ := List.pairwise_cons.mp rising
    rw [insert]
    cases order : k.compare q.1 with
    | lt =>
      refine List.pairwise_cons.mpr ⟨fun p present => ?_, rising⟩
      rcases List.mem_cons.mp present with rfl | present
      · exact order
      · exact Key.compare_trans order (first p present)
    | eq =>
      cases Key.compare_eq.mp order
      exact List.pairwise_cons.mpr ⟨first, rest_rising⟩
    | gt =>
      refine List.pairwise_cons.mpr ⟨fun p present => ?_, ih rest_rising⟩
      rcases insert_keys present with rfl | present
      · rw [Key.compare_swap, order]
        rfl
      · exact first p present

theorem insert_perm {k : Key} {pairs : List (Key × Value)} (new : ∀ p ∈ pairs, p.1 ≠ k) (v : Value) :
    (insert k v pairs).Perm ((k, v) :: pairs) := by
  induction pairs with
  | nil => exact .refl _
  | cons q rest ih =>
    rw [insert]
    cases order : k.compare q.1 with
    | lt => exact .refl _
    | eq => exact absurd (Key.compare_eq.mp order).symm (new q List.mem_cons_self)
    | gt => exact ((ih fun p present => new p (List.mem_cons_of_mem q present)).cons q).trans (.swap ..)

def inserted (pairs read : List (Key × Value)) : List (Key × Value) :=
  pairs.foldl (fun read p => insert p.1 p.2 read) read

theorem inserted_rising (pairs : List (Key × Value)) {read : List (Key × Value)} (rising : Rising read) :
    Rising (inserted pairs read) := by
  induction pairs generalizing read with
  | nil => exact rising
  | cons p rest ih => exact ih (insert_rising p.1 p.2 rising)

theorem inserted_perm {pairs read : List (Key × Value)} (distinct : ((pairs ++ read).map Prod.fst).Nodup) :
    (inserted pairs read).Perm (pairs ++ read) := by
  induction pairs generalizing read with
  | nil => exact .refl _
  | cons p rest ih =>
    simp only [List.cons_append, List.map_cons, List.nodup_cons, List.mem_map, List.mem_append] at distinct
    obtain ⟨new, distinct⟩ := distinct
    have one : (insert p.1 p.2 read).Perm (p :: read) :=
      insert_perm (fun q present equal => new ⟨q, .inr present, equal⟩) p.2
    have moved : (rest ++ insert p.1 p.2 read).Perm (p :: (rest ++ read)) :=
      (one.append_left rest).trans List.perm_middle
    refine (ih ((moved.map Prod.fst).nodup_iff.mpr ?_)).trans moved
    simp only [List.map_cons, List.nodup_cons, List.mem_map, List.mem_append]
    exact ⟨new, distinct⟩

theorem Rising.distinct {pairs : List (Key × Value)} (rising : Rising pairs) : (pairs.map Prod.fst).Nodup := by
  refine List.pairwise_map.mpr (rising.imp fun {p q} order equal => ?_)
  rw [Key.compare_eq.mpr equal] at order
  cases order

theorem inserted_eq {pairs written : List (Key × Value)} (rising : Rising pairs) (perm : pairs.Perm written) :
    inserted written [] = pairs := by
  have same : (inserted written []).Perm pairs := by
    have distinct : ((written ++ []).map Prod.fst).Nodup := by
      rw [List.append_nil]
      exact (perm.map Prod.fst).nodup_iff.mp rising.distinct
    have all := inserted_perm distinct
    rw [List.append_nil] at all
    exact all.trans perm.symm
  refine List.Perm.eq_of_pairwise (fun p q _ _ up down => ?_) (inserted_rising written .nil) rising same
  rw [Key.compare_swap, up] at down
  cases down

-- The value `x` stands in a value with `n` arrays and hashes around it. The keys of a hash stand in it too.
inductive Within : (n : Nat) → (x v : Value) → Prop where
  | here (v : Value) : Within 0 v v
  | item {n : Nat} {x y : Value} {items : List Value} (present : y ∈ items) (inside : Within n x y) :
      Within (n + 1) x (array items)
  | key {p : Key × Value} {pairs : List (Key × Value)} (present : p ∈ pairs) : Within 1 p.1.toValue (hash pairs)
  | pair {n : Nat} {x : Value} {p : Key × Value} {pairs : List (Key × Value)} (present : p ∈ pairs)
      (inside : Within n x p.2) : Within (n + 1) x (hash pairs)

def Leaf : Value → Prop
  | array _ | hash _ => False
  | _ => True

def Throughout (holds : Nat → Value → Prop) (v : Value) : Prop := ∀ n x, Within n x v → holds n x

section
variable {holds : Nat → Value → Prop}

theorem throughout_array {items : List Value} : Throughout holds (array items) ↔
    holds 0 (array items) ∧ ∀ y ∈ items, Throughout (fun n => holds (n + 1)) y := by
  constructor
  · intro all
    exact ⟨all 0 _ (.here _), fun y present n x inside => all (n + 1) x (.item present inside)⟩
  · rintro ⟨here, each⟩ n x inside
    cases inside with
    | here => exact here
    | item present inside => exact each _ present _ x inside

theorem throughout_hash {pairs : List (Key × Value)} : Throughout holds (hash pairs) ↔
    holds 0 (hash pairs) ∧ ∀ p ∈ pairs, holds 1 p.1.toValue ∧ Throughout (fun n => holds (n + 1)) p.2 := by
  constructor
  · intro all
    exact ⟨all 0 _ (.here _), fun p present =>
      ⟨all 1 _ (.key present), fun n x inside => all (n + 1) x (.pair present inside)⟩⟩
  · rintro ⟨here, each⟩ n x inside
    cases inside with
    | here => exact here
    | key present => exact (each _ present).1
    | pair present inside => exact (each _ present).2 _ x inside

theorem throughout_leaf {v : Value} (leaf : v.Leaf) : Throughout holds v ↔ holds 0 v := by
  refine ⟨fun all => all 0 v (.here v), fun here n x inside => ?_⟩
  cases inside with
  | here => exact here
  | item => exact leaf.elim
  | key => exact leaf.elim
  | pair => exact leaf.elim

end

-- Every hash in the value has its pairs in the order of their keys.
def Ordered (v : Value) : Prop := Throughout (fun _ x => ∀ pairs, x = hash pairs → Rising pairs) v

mutual

-- The second value is the first with the pairs of each hash in any order.
def Arranges : (v w : Value) → Prop
  | array items, w => ∃ written, w = array written ∧ ArrangesItems items written
  | hash pairs, w => ∃ arranged written, w = hash written ∧ ArrangesPairs pairs arranged ∧ arranged.Perm written
  | v, w => w = v

def ArrangesItems : (items written : List Value) → Prop
  | [], written => written = []
  | x :: xs, written => ∃ y ys, written = y :: ys ∧ x.Arranges y ∧ ArrangesItems xs ys

def ArrangesPairs : (pairs written : List (Key × Value)) → Prop
  | [], written => written = []
  | (k, x) :: ps, written => ∃ y qs, written = (k, y) :: qs ∧ x.Arranges y ∧ ArrangesPairs ps qs

end

theorem length_items {items written : List Value} (arranged : ArrangesItems items written) :
    items.length = written.length := by
  induction items generalizing written with
  | nil =>
    rw [ArrangesItems] at arranged
    rw [arranged]
  | cons x xs ih =>
    rw [ArrangesItems] at arranged
    obtain ⟨y, ys, rfl, -, rest⟩ := arranged
    rw [List.length_cons, List.length_cons, ih rest]

theorem length_pairs {pairs written : List (Key × Value)} (arranged : ArrangesPairs pairs written) :
    pairs.length = written.length := by
  induction pairs generalizing written with
  | nil =>
    rw [ArrangesPairs] at arranged
    rw [arranged]
  | cons p ps ih =>
    rw [ArrangesPairs] at arranged
    obtain ⟨y, qs, rfl, -, rest⟩ := arranged
    rw [List.length_cons, List.length_cons, ih rest]

mutual

-- The value with the pairs of each hash put in one after another, as a reader does.
def normal : Value → Value
  | array items => array (normalItems items)
  | hash pairs => hash (inserted (normalPairs pairs) [])
  | v => v

def normalItems : List Value → List Value
  | [] => []
  | x :: xs => x.normal :: normalItems xs

def normalPairs : List (Key × Value) → List (Key × Value)
  | [] => []
  | (k, x) :: ps => (k, x.normal) :: normalPairs ps

end

theorem normalPairs_eq (pairs : List (Key × Value)) : normalPairs pairs = pairs.map fun p => (p.1, p.2.normal) := by
  induction pairs with
  | nil => rfl
  | cons p rest ih => rw [normalPairs, ih, List.map_cons]

theorem ordered_array {items : List Value} : Ordered (array items) ↔ ∀ x ∈ items, Ordered x := by
  simp [Ordered, throughout_array]

theorem ordered_hash {pairs : List (Key × Value)} :
    Ordered (hash pairs) ↔ Rising pairs ∧ ∀ p ∈ pairs, Ordered p.2 := by
  have keys (k : Key) (pairs) : k.toValue ≠ hash pairs := by cases k <;> simp [Key.toValue]
  simp [Ordered, throughout_hash, keys]

mutual

theorem normal_eq : ∀ {v w : Value}, v.Ordered → v.Arranges w → w.normal = v
  | array items, w, ordered, arranged => by
    rw [Arranges] at arranged
    obtain ⟨written, rfl, arranged⟩ := arranged
    rw [normal, normalItems_eq (ordered_array.mp ordered) arranged]
  | hash pairs, w, ordered, arranged => by
    rw [Arranges] at arranged
    obtain ⟨arranged, written, rfl, pairwise, perm⟩ := arranged
    obtain ⟨rising, each⟩ := ordered_hash.mp ordered
    have whole : (normalPairs arranged).Perm (normalPairs written) := by
      rw [normalPairs_eq, normalPairs_eq]
      exact perm.map _
    rw [normal]
    rw [normalPairs_eq_of_arranges each pairwise] at whole
    rw [inserted_eq rising whole]
  | null, _, _, rfl | integer _, _, _, rfl | float _, _, _, rfl | boolean _, _, _, rfl
  | string _, _, _, rfl | function _, _, _, rfl | closure .., _, _, rfl | builtin _, _, _, rfl => rfl

theorem normalItems_eq : ∀ {items written : List Value}, (∀ x ∈ items, x.Ordered) → ArrangesItems items written →
    normalItems written = items
  | [], _, _, arranged => by
    rw [ArrangesItems] at arranged
    rw [arranged, normalItems]
  | x :: xs, _, ordered, arranged => by
    rw [ArrangesItems] at arranged
    obtain ⟨y, ys, rfl, first, rest⟩ := arranged
    obtain ⟨one, others⟩ := List.forall_mem_cons.mp ordered
    rw [normalItems, normal_eq one first, normalItems_eq others rest]

theorem normalPairs_eq_of_arranges : ∀ {pairs written : List (Key × Value)}, (∀ p ∈ pairs, p.2.Ordered) →
    ArrangesPairs pairs written → normalPairs written = pairs
  | [], _, _, arranged => by
    rw [ArrangesPairs] at arranged
    rw [arranged, normalPairs]
  | (k, x) :: ps, _, ordered, arranged => by
    rw [ArrangesPairs] at arranged
    obtain ⟨y, qs, rfl, first, rest⟩ := arranged
    obtain ⟨one, others⟩ := List.forall_mem_cons.mp ordered
    rw [normalPairs, normal_eq one first, normalPairs_eq_of_arranges others rest]

end

mutual

-- What does not tell two arrangements of a value apart holds throughout both or throughout neither.
theorem throughout_arranges : ∀ {v w : Value} {holds : Nat → Value → Prop},
    (∀ n x y, x.Arranges y → (holds n x ↔ holds n y)) → v.Arranges w → (Throughout holds v ↔ Throughout holds w)
  | array items, w, holds, same, arranged => by
    have here := same 0 _ _ arranged
    rw [Arranges] at arranged
    obtain ⟨written, rfl, arranged⟩ := arranged
    rw [throughout_array, throughout_array, here, throughout_items (fun n => same (n + 1)) arranged]
  | hash pairs, w, holds, same, arranged => by
    have here := same 0 _ _ arranged
    rw [Arranges] at arranged
    obtain ⟨arranged, written, rfl, pairwise, perm⟩ := arranged
    rw [throughout_hash, throughout_hash, here, throughout_pairs (fun n => same (n + 1)) pairwise]
    simp only [perm.mem_iff]
  | null, _, _, _, rfl | integer _, _, _, _, rfl | float _, _, _, _, rfl | boolean _, _, _, _, rfl
  | string _, _, _, _, rfl | function _, _, _, _, rfl | closure .., _, _, _, rfl | builtin _, _, _, _, rfl => Iff.rfl

theorem throughout_items : ∀ {items written : List Value} {holds : Nat → Value → Prop},
    (∀ n x y, x.Arranges y → (holds n x ↔ holds n y)) → ArrangesItems items written →
    ((∀ x ∈ items, Throughout holds x) ↔ ∀ x ∈ written, Throughout holds x)
  | [], _, _, _, arranged => by
    rw [ArrangesItems] at arranged
    rw [arranged]
  | x :: xs, _, _, same, arranged => by
    rw [ArrangesItems] at arranged
    obtain ⟨y, ys, rfl, first, rest⟩ := arranged
    rw [List.forall_mem_cons, List.forall_mem_cons, throughout_arranges same first, throughout_items same rest]

theorem throughout_pairs : ∀ {pairs written : List (Key × Value)} {key : Value → Prop} {holds : Nat → Value → Prop},
    (∀ n x y, x.Arranges y → (holds n x ↔ holds n y)) → ArrangesPairs pairs written →
    ((∀ p ∈ pairs, key p.1.toValue ∧ Throughout holds p.2) ↔ ∀ p ∈ written, key p.1.toValue ∧ Throughout holds p.2)
  | [], _, _, _, _, arranged => by
    rw [ArrangesPairs] at arranged
    rw [arranged]
  | (k, x) :: ps, _, _, _, same, arranged => by
    rw [ArrangesPairs] at arranged
    obtain ⟨y, qs, rfl, first, rest⟩ := arranged
    rw [List.forall_mem_cons, List.forall_mem_cons, throughout_arranges same first, throughout_pairs same rest]

end

end Value
end StackScript
