import StackScript.Code.Listing

-- The text of a listing. Its lines end with newlines and their words are parted by spaces, so that the text tells what
-- each line says.
namespace StackScript

variable {α : Type}

theorem intercalate_cons (x : α) (l : List α) (ls : List (List α)) :
    [x].intercalate (l :: ls) = l ++ ls.flatMap (x :: ·) := by
  induction ls generalizing l with
  | nil => simp
  | cons m ms ih => simp [List.intercalate_cons_cons, ih]

theorem flatMap_ended (x : α) (ls : List (List α)) : ls.flatMap (· ++ [x]) = [x].intercalate (ls ++ [[]]) := by
  induction ls with
  | nil => rfl
  | cons l ls ih =>
    have more : ls ++ [[]] ≠ [] := by simp
    simp only [List.flatMap_cons, List.cons_append, List.intercalate_cons_of_ne_nil more, ih]

theorem not_mem_intercalate {x y : α} {ls : List (List α)} (other : x ≠ y) (absent : ∀ l ∈ ls, x ∉ l) :
    x ∉ [y].intercalate ls := by
  cases ls with
  | nil => exact List.not_mem_nil
  | cons l ls =>
    obtain ⟨here, rest⟩ := List.forall_mem_cons.mp absent
    simp only [intercalate_cons, List.mem_append, List.mem_flatMap, List.mem_cons, not_or, not_exists, not_and]
    exact ⟨here, fun m inside => ⟨other, rest m inside⟩⟩

section
variable [BEq α] [LawfulBEq α]

-- Pieces without the separator in them are found between the separators.
theorem intercalate_unique {x : α} {ls ms : List (List α)} (left : ∀ l ∈ ls, x ∉ l) (right : ∀ m ∈ ms, x ∉ m)
    (nonempty : ls ≠ []) (others : ms ≠ []) (same : [x].intercalate ls = [x].intercalate ms) : ls = ms := by
  have pieces := congrArg (List.splitOn x) same
  simpa only [List.splitOn_intercalate x left nonempty, List.splitOn_intercalate x right others] using pieces

theorem flatMap_ended_unique {x : α} {ls ms : List (List α)} (left : ∀ l ∈ ls, x ∉ l) (right : ∀ m ∈ ms, x ∉ m)
    (same : ls.flatMap (· ++ [x]) = ms.flatMap (· ++ [x])) : ls = ms := by
  have blank : ∀ l ∈ ([[]] : List (List α)), x ∉ l := by simp
  simp only [flatMap_ended] at same
  have pieces := intercalate_unique (List.forall_mem_append.mpr ⟨left, blank⟩) (List.forall_mem_append.mpr ⟨right, blank⟩)
    (by simp) (by simp) same
  exact List.append_cancel_right pieces

end

namespace Text

theorem toList_padded (width n : Nat) :
    (padded width n).toList = List.replicate (width - (Nat.toDigits 10 n).length) '0' ++ Nat.toDigits 10 n := by
  simp only [padded, String.toList_ofList]

theorem padded_unique {width m n : Nat} (same : (padded width m).toList = (padded width n).toList) : m = n := by
  have value (n : Nat) : Nat.ofDigitChars 10 (padded width n).toList 0 = n := by
    simp only [toList_padded, Nat.ofDigitChars_append, Nat.ofDigitChars_replicate_zero, Nat.mul_zero,
      Nat.ofDigitChars_ten_toDigits]
  exact (value m).symm.trans ((congrArg (Nat.ofDigitChars 10 · 0) same).trans (value n))

theorem toList_hex (b : UInt8) : (hex 2 b.toNat).toList = [Nat.digitChar (b.toNat / 16), Nat.digitChar (b.toNat % 16)] := by
  have byte := b.toNat_lt
  simp only [hex, String.toList_ofList]
  by_cases small : b.toNat < 16
  · have high : b.toNat / 16 = 0 := Nat.div_eq_of_lt small
    simp only [Nat.toDigits_of_lt_base small, high, Nat.mod_eq_of_lt small]
    rfl
  · have high : b.toNat / 16 < 16 := by omega
    simp only [Nat.toDigits_of_base_le (by decide) (Nat.not_lt.mp small), Nat.toDigits_of_lt_base high]
    rfl

theorem hex_unique {a b : UInt8} (same : (hex 2 a.toNat).toList = (hex 2 b.toNat).toList) : a = b := by
  have digit : ∀ m n : Fin 16, Nat.digitChar m = Nat.digitChar n → m = n := by decide
  simp only [toList_hex, List.cons.injEq, and_true] at same
  have first := digit ⟨a.toNat / 16, by have := a.toNat_lt; omega⟩ ⟨b.toNat / 16, by have := b.toNat_lt; omega⟩ same.1
  have second := digit ⟨a.toNat % 16, Nat.mod_lt _ (by decide)⟩ ⟨b.toNat % 16, Nat.mod_lt _ (by decide)⟩ same.2
  simp only [Fin.mk.injEq] at first second
  exact UInt8.toNat_inj.mp (by omega)

end Text

theorem OpCode.name_unique {op other : OpCode} (same : op.name = other.name) : op = other := by
  have found (op : OpCode) : ofName? op.name = some op := by cases op <;> rfl
  exact Option.some.inj ((found op).symm.trans ((congrArg ofName? same).trans (found other)))

namespace ListingLine

def words (line : ListingLine) : List (List Char) :=
  (Text.padded 4 line.offset).toList ::
    match line.item with
    | .nothing => []
    | .unknown byte => ["ERROR:".toList, "unknown".toList, "opcode".toList, '0' :: 'x' :: (Text.hex 2 byte.toNat).toList]
    | .truncated op => ["ERROR:".toList, "truncated".toList, op.name.toList]
    | .instruction i => i.opcode.name.toList :: i.operands.map (Nat.toDigits 10)

def body (line : ListingLine) : List Char := [' '].intercalate line.words

theorem text_body {line : ListingLine} (something : line.item ≠ .nothing) : line.text.toList = line.body ++ ['\n'] := by
  have operands (front : String) (ns : List Nat) : (ns.foldl (fun text n => text ++ " " ++ n.repr) front).toList =
      front.toList ++ ns.flatMap (' ' :: Nat.toDigits 10 ·) := by
    induction ns generalizing front with
    | nil => simp
    | cons n ns ih => simp [ih]
  obtain ⟨offset, item⟩ := line
  cases item with
  | nothing => exact absurd rfl something
  | unknown byte => simp [text, body, words, toString]
  | truncated op => simp [text, body, words, toString]
  | instruction i => simp [text, body, words, intercalate_cons, operands, toString, List.flatMap_map]

theorem word_solid {line : ListingLine} {word : List Char} (present : word ∈ line.words) : ' ' ∉ word ∧ '\n' ∉ word := by
  have digits (n : Nat) : ' ' ∉ Nat.toDigits 10 n ∧ '\n' ∉ Nat.toDigits 10 n := by
    have each (c : Char) (here : c ∈ Nat.toDigits 10 n) : c.isDigit = true :=
      Nat.isDigit_of_mem_toDigits (by decide) (by decide) here
    exact ⟨fun space => absurd (each _ space) (by decide), fun newline => absurd (each _ newline) (by decide)⟩
  have name (op : OpCode) : ' ' ∉ op.name.toList ∧ '\n' ∉ op.name.toList := by cases op <;> decide
  have hex (b : UInt8) : ' ' ∉ (Text.hex 2 b.toNat).toList ∧ '\n' ∉ (Text.hex 2 b.toNat).toList := by
    have each : ∀ n : Fin 16, ' ' ≠ Nat.digitChar n ∧ '\n' ≠ Nat.digitChar n := by decide
    have first := each ⟨b.toNat / 16, by have := b.toNat_lt; omega⟩
    have second := each ⟨b.toNat % 16, Nat.mod_lt _ (by decide)⟩
    simp only [Text.toList_hex, List.mem_cons, List.not_mem_nil, or_false, not_or]
    exact ⟨⟨first.1, second.1⟩, first.2, second.2⟩
  obtain ⟨offset, item⟩ := line
  rcases List.mem_cons.mp present with rfl | present
  · have zero (n : Nat) : ' ' ∉ List.replicate n '0' ∧ '\n' ∉ List.replicate n '0' := by simp
    simp only [Text.toList_padded, List.mem_append, not_or]
    exact ⟨⟨(zero _).1, (digits _).1⟩, (zero _).2, (digits _).2⟩
  · cases item with
    | nothing => cases present
    | unknown byte =>
      simp only [List.mem_cons, List.not_mem_nil, or_false] at present
      rcases present with rfl | rfl | rfl | rfl
      · decide
      · decide
      · decide
      · have ⟨space, newline⟩ := hex byte
        simp [space, newline]
    | truncated op =>
      simp only [List.mem_cons, List.not_mem_nil, or_false] at present
      rcases present with rfl | rfl | rfl
      · decide
      · decide
      · exact name op
    | instruction i =>
      rcases List.mem_cons.mp present with rfl | present
      · exact name i.opcode
      · obtain ⟨n, -, rfl⟩ := List.mem_map.mp present
        exact digits n

-- The words of a line tell it from any other.
theorem words_unique {line other : ListingLine} (something : line.item ≠ .nothing) (known : other.item ≠ .nothing)
    (same : line.words = other.words) : line = other := by
  have proper (op : OpCode) : op.name.toList ≠ "ERROR:".toList := by cases op <;> decide
  obtain ⟨offset, item⟩ := line
  obtain ⟨offset', item'⟩ := other
  obtain ⟨offsets, rest⟩ := List.cons.inj same
  cases Text.padded_unique offsets
  suffices item = item' by rw [this]
  cases item with
  | nothing => exact absurd rfl something
  | unknown byte =>
    cases item' with
    | nothing => exact absurd rfl known
    | unknown byte' =>
      simp only [List.cons.injEq, true_and, and_true] at rest
      rw [Text.hex_unique rest]
    | truncated op => simp at rest
    | instruction i => exact absurd (List.cons.inj rest).1.symm (proper _)
  | truncated op =>
    cases item' with
    | nothing => exact absurd rfl known
    | unknown byte => simp at rest
    | truncated op' =>
      simp only [List.cons.injEq, true_and, and_true] at rest
      rw [OpCode.name_unique (String.toList_inj.mp rest)]
    | instruction i => exact absurd (List.cons.inj rest).1.symm (proper _)
  | instruction i =>
    cases item' with
    | nothing => exact absurd rfl known
    | unknown byte => exact absurd (List.cons.inj rest).1 (proper _)
    | truncated op => exact absurd (List.cons.inj rest).1 (proper _)
    | instruction j =>
      obtain ⟨names, operands⟩ := List.cons.inj rest
      have opcode := OpCode.name_unique (String.toList_inj.mp names)
      have numbers : i.operands = j.operands := by
        refine (List.map_inj_right fun m n digits => ?_).mp operands
        have value := congrArg (Nat.ofDigitChars 10 · 0) digits
        simpa only [Nat.ofDigitChars_ten_toDigits] using value
      obtain ⟨_, _⟩ := i
      obtain ⟨_, _⟩ := j
      cases opcode
      cases numbers
      rfl

theorem newline_not_mem_body (line : ListingLine) : '\n' ∉ line.body :=
  not_mem_intercalate (by decide) fun _ inside => (word_solid inside).2

theorem body_unique {line other : ListingLine} (something : line.item ≠ .nothing) (known : other.item ≠ .nothing)
    (same : line.body = other.body) : line = other :=
  words_unique something known (intercalate_unique (fun _ inside => (word_solid inside).1) (fun _ inside => (word_solid inside).1)
    (List.cons_ne_nil _ _) (List.cons_ne_nil _ _) same)

theorem bodies_unique {lines others : List ListingLine} (something : ∀ line ∈ lines, line.item ≠ .nothing)
    (known : ∀ line ∈ others, line.item ≠ .nothing) (same : lines.map body = others.map body) : lines = others := by
  induction lines generalizing others with
  | nil => exact (List.map_eq_nil_iff.mp same.symm).symm
  | cons line lines ih =>
    cases others with
    | nil => cases same
    | cons other others =>
      obtain ⟨first, rest⟩ := List.cons.inj same
      obtain ⟨here, something⟩ := List.forall_mem_cons.mp something
      obtain ⟨there, known⟩ := List.forall_mem_cons.mp known
      rw [body_unique here there first, ih something known rest]

theorem toList_texts {lines : List ListingLine} (something : ∀ line ∈ lines, line.item ≠ .nothing) :
    (String.join (lines.map text)).toList = (lines.map body).flatMap (· ++ ['\n']) := by
  simp only [String.toList_join, List.flatMap_map]
  exact congrArg List.flatten (List.map_congr_left fun line present => text_body (something line present))

theorem texts_unique {lines others : List ListingLine} (something : ∀ line ∈ lines, line.item ≠ .nothing)
    (known : ∀ line ∈ others, line.item ≠ .nothing) (same : String.join (lines.map text) = String.join (others.map text)) :
    lines = others := by
  have plain (lines : List ListingLine) : ∀ b ∈ lines.map body, '\n' ∉ b :=
    List.forall_mem_map.mpr fun line _ => line.newline_not_mem_body
  have spelled := congrArg String.toList same
  simp only [toList_texts something, toList_texts known] at spelled
  exact bodies_unique something known (flatMap_ended_unique (plain lines) (plain others) spelled)

end ListingLine
end StackScript
