import Mathlib.Data.List.DropRight
import Mathlib.Data.String.Basic
import StackScript.Text.Position

-- Lines, columns and widths at the places of a text where a character begins. Such a place lies behind some characters
-- of the text, and its number is that of their bytes.
namespace StackScript.Text

open String (utf8Len)

-- What stands on the current line behind some text.
def lead (before : List Char) : List Char := before.rtakeWhile (· ≠ '\n')

-- What a text puts on the current line.
def onLine (text : List Char) : List Char := text.takeWhile (· ≠ '\n')

def lineOf (before : List Char) : Nat := before.count '\n' + 1

def columnOf (before : List Char) : Nat := (lead before).length + 1

theorem plain_lead (before : List Char) : '\n' ∉ lead before := by
  intro present
  simpa using List.mem_rtakeWhile_imp present

theorem lead_append {before : List Char} (c : Char) : lead (before ++ [c]) = if c = '\n' then [] else lead before ++ [c] := by
  rw [lead, List.rtakeWhile_concat]
  by_cases newline : c = '\n' <;> simp [lead, newline]

def above (before : List Char) : List Char := before.rdropWhile (· ≠ '\n')

theorem above_append {before : List Char} (c : Char) :
    above (before ++ [c]) = if c = '\n' then before ++ [c] else above before := by
  rw [above, List.rdropWhile_concat]
  by_cases newline : c = '\n' <;> simp [above, newline]

theorem above_lead (before : List Char) : above before ++ lead before = before := List.rdropWhile_append_rtakeWhile

theorem dropBytes_at (before behind : List Char) : dropBytes? (before ++ behind) (utf8Len before) = some behind := by
  induction before with
  | nil => simp [dropBytes?]
  | cons c rest ih =>
    obtain ⟨n, size⟩ := Nat.exists_eq_succ_of_ne_zero (Nat.ne_of_gt c.utf8Size_pos)
    rw [String.utf8Len_cons, size, Nat.add_succ, List.cons_append, dropBytes?, if_pos (by omega), size]
    rw [show utf8Len rest + n + 1 - n.succ = utf8Len rest by omega]
    exact ih

theorem takeBytes_at (text behind taken : List Char) :
    takeBytes? (text ++ behind) (utf8Len text) taken = some (taken.reverse ++ text) := by
  induction text generalizing taken with
  | nil => simp [takeBytes?]
  | cons c rest ih =>
    obtain ⟨n, size⟩ := Nat.exists_eq_succ_of_ne_zero (Nat.ne_of_gt c.utf8Size_pos)
    rw [String.utf8Len_cons, size, Nat.add_succ, List.cons_append, takeBytes?, if_pos (by omega), size]
    rw [show utf8Len rest + n + 1 - n.succ = utf8Len rest by omega, ih, List.reverse_cons, List.append_assoc]
    rfl

theorem slice_at {source : String} {before text behind : List Char} (whole : source.toList = before ++ (text ++ behind)) :
    slice? source ⟨utf8Len before, utf8Len (before ++ text)⟩ = some text := by
  rw [slice?, whole, dropBytes_at, String.utf8Len_append, Nat.add_sub_cancel_left]
  exact takeBytes_at text behind []

theorem size_at {source : String} {before behind : List Char} (whole : source.toList = before ++ behind) :
    source.utf8ByteSize = utf8Len before + utf8Len behind := by
  rw [← String.utf8Len_append, ← whole, String.utf8Len_toList]

-- The search ends where the bounds reach the point for the last time. By induction on the steps: that place stays between
-- `lo` and `hi`.
theorem boundsUpTo_at {front back : List Nat} {point : Nat} (reached : ∀ bound ∈ front, bound ≤ point)
    (beyond : ∀ bound ∈ back, point < bound) {steps lo hi : Nat} (left : lo ≤ front.length) (right : front.length ≤ hi)
    (within : hi ≤ (front ++ back).length) (enough : hi - lo < steps) :
    boundsUpTo (front ++ back).toArray point steps lo hi = front.length := by
  induction steps generalizing lo hi with
  | zero => cases enough
  | succ steps ih =>
    rw [boundsUpTo]
    by_cases more : lo < hi
    · have inside : (lo + hi) / 2 < (front ++ back).length := by omega
      have found : (front ++ back).toArray[(lo + hi) / 2]? = some (front ++ back)[(lo + hi) / 2] := by simp
      rw [if_pos more]
      simp only [found]
      rcases Nat.lt_or_ge ((lo + hi) / 2) front.length with early | late
      · have below := reached _ (List.getElem_mem early)
        rw [List.getElem_append_left early, if_pos below]
        exact ih early right within (by omega)
      · have above := beyond _ (List.getElem_mem (l := back) (n := (lo + hi) / 2 - front.length)
          (by rw [List.length_append] at inside; omega))
        rw [List.getElem_append_right late, if_neg (Nat.not_le_of_lt above)]
        exact ih left late (by omega) (by omega)
    · rw [if_neg more]
      omega

theorem lineStarts_append (text more : List Char) (offset : Nat) (starts : Array Nat) :
    lineStarts (text ++ more) offset starts = lineStarts more (offset + utf8Len text) (lineStarts text offset starts) := by
  induction text generalizing offset starts with
  | nil => rfl
  | cons c rest ih =>
    rw [List.cons_append, lineStarts, lineStarts, ih, String.utf8Len_cons, Nat.add_assoc, Nat.add_comm c.utf8Size]

-- What the index of a text has up to a place, and what it has behind that.
structure Divides (before behind : List Char) (front back : List Nat) : Prop where
  count : front.length = lineOf before
  last : front.getLast? = some (utf8Len (above before))
  reached : ∀ start ∈ front, start ≤ utf8Len before
  beyond : ∀ start ∈ back, utf8Len before < start
  next : back.head? = if '\n' ∈ behind then some (utf8Len before + utf8Len (onLine behind) + 1) else none

theorem lineStarts_front (before : List Char) : (lineStarts before 0 #[0]).size = lineOf before ∧
    (lineStarts before 0 #[0]).toList.getLast? = some (utf8Len (above before)) ∧
    ∀ start ∈ (lineStarts before 0 #[0]).toList, start ≤ utf8Len before := by
  induction before using List.reverseRecOn with
  | nil => simp [lineStarts, lineOf, above]
  | append_singleton before c ih =>
    obtain ⟨count, last, reached⟩ := ih
    rw [lineStarts_append, lineStarts, lineStarts, lineOf, above_append, List.count_append, Nat.zero_add]
    have farther : utf8Len before ≤ utf8Len (before ++ [c]) := by simp
    by_cases newline : c = '\n'
    · simp only [newline, if_true, Array.size_push, count, lineOf, Array.toList_push, List.getLast?_append]
      refine ⟨by simp, by simp, ?_⟩
      intro start present
      rcases List.mem_append.mp present with earlier | here
      · exact Nat.le_trans (reached start earlier) (newline ▸ farther)
      · rw [List.mem_singleton.mp here]
        simp
    · simp only [newline, if_false, count, lineOf]
      exact ⟨by simp [newline], last, fun start present => Nat.le_trans (reached start present) farther⟩

theorem lineStarts_back (behind : List Char) (offset : Nat) (starts : Array Nat) :
    ∃ back, (lineStarts behind offset starts).toList = starts.toList ++ back ∧ (∀ start ∈ back, offset < start) ∧
      back.head? = if '\n' ∈ behind then some (offset + utf8Len (onLine behind) + 1) else none := by
  induction behind generalizing offset starts with
  | nil => exact ⟨[], by simp [lineStarts]⟩
  | cons c rest ih =>
    have size := c.utf8Size_pos
    rw [lineStarts]
    by_cases newline : c = '\n'
    · obtain ⟨back, same, beyond, -⟩ := ih (offset + c.utf8Size) (starts.push (offset + c.utf8Size))
      refine ⟨(offset + c.utf8Size) :: back, ?_, ?_, ?_⟩
      · simp only [newline, if_true] at same ⊢
        rw [same]
        simp
      · intro start present
        rcases List.mem_cons.mp present with rfl | later
        · omega
        · have := beyond start later
          omega
      · subst newline
        simp only [List.head?_cons, List.mem_cons, true_or, if_true, onLine, List.takeWhile_cons]
        rfl
    · obtain ⟨back, same, beyond, next⟩ := ih (offset + c.utf8Size) starts
      refine ⟨back, ?_, ?_, ?_⟩
      · simp only [newline, if_false]
        exact same
      · intro start present
        have := beyond start present
        omega
      · rw [next]
        simp only [List.mem_cons, Ne.symm newline, false_or, onLine, List.takeWhile_cons, ne_eq, newline,
          not_false_eq_true, decide_true, if_true, String.utf8Len_cons]
        split
        · congr 1
          omega
        · rfl

theorem LineIndex.starts_at {source : String} {before behind : List Char} (whole : source.toList = before ++ behind) :
    ∃ front back, (ofSource source).starts = (front ++ back).toArray ∧ Divides before behind front back := by
  obtain ⟨count, last, reached⟩ := lineStarts_front before
  obtain ⟨back, same, beyond, next⟩ := lineStarts_back behind (utf8Len before) (lineStarts before 0 #[0])
  refine ⟨(lineStarts before 0 #[0]).toList, back, ?_, ⟨by simpa using count, last, reached, beyond, next⟩⟩
  change lineStarts source.toList 0 #[0] = _
  rw [whole, lineStarts_append, Nat.zero_add, ← same]

theorem Divides.start {before behind : List Char} {front back : List Nat} (divides : Divides before behind front back) :
    (front ++ back)[before.count '\n']? = some (utf8Len (above before)) := by
  have last := divides.last
  rw [List.getLast?_eq_getElem?, divides.count, lineOf, Nat.add_sub_cancel] at last
  rw [List.getElem?_append_left, last]
  rw [divides.count]
  exact Nat.lt_succ_self _

theorem LineIndex.lineAt_at {source : String} {before behind : List Char} (whole : source.toList = before ++ behind) :
    ((ofSource source).lineAt (utf8Len before)).val = before.count '\n' := by
  obtain ⟨front, back, starts, divides⟩ := starts_at whole
  rw [lineAt]
  simp only [starts, List.size_toArray]
  rw [boundsUpTo_at divides.reached divides.beyond (Nat.zero_le _) (by simp) (Nat.le_refl _) (by omega), divides.count,
    lineOf, Nat.add_sub_cancel]

theorem lookup_at {source : String} {before behind : List Char} (whole : source.toList = before ++ behind) :
    lookup source (utf8Len before) = (lineOf before, columnOf before) := by
  obtain ⟨front, back, starts, divides⟩ := LineIndex.starts_at whole
  have line := LineIndex.lineAt_at whole
  have start : (LineIndex.ofSource source).starts[(LineIndex.ofSource source).lineAt (utf8Len before)] =
      utf8Len (above before) := by
    have known := divides.start
    rw [← line, ← List.getElem?_toArray, ← starts] at known
    simpa using known
  have inside : min (utf8Len before) source.utf8ByteSize = utf8Len before := by
    rw [size_at whole]
    omega
  have piece : slice? source ⟨utf8Len (above before), utf8Len before⟩ = some (lead before) := by
    have parts : source.toList = above before ++ (lead before ++ behind) := by rw [← List.append_assoc, above_lead, whole]
    have found := slice_at parts
    rwa [above_lead] at found
  rw [lookup, LineIndex.lookup]
  simp only [show (LineIndex.ofSource source).source = source from rfl, inside, start, piece, line]
  rfl

theorem onLine_split {behind : List Char} (more : '\n' ∈ behind) : ∃ rest, behind = onLine behind ++ '\n' :: rest := by
  induction behind with
  | nil => cases more
  | cons c rest ih =>
    by_cases newline : c = '\n'
    · exact ⟨rest, by simp [onLine, newline]⟩
    · obtain ⟨tail, same⟩ := ih (by simpa [Ne.symm newline] using more)
      refine ⟨tail, ?_⟩
      rw [onLine] at same ⊢
      simpa [newline] using same

theorem onLine_whole {behind : List Char} (single : '\n' ∉ behind) : onLine behind = behind := by
  rw [onLine, List.takeWhile_eq_self_iff]
  intro c present
  simpa using fun same : c = '\n' => single (same ▸ present)

theorem plain_onLine (text : List Char) : '\n' ∉ onLine text := by
  intro present
  simpa using List.mem_takeWhile_imp present

open LineIndex.lineText (trimEnd)

theorem trimEnd_absent {last : Char} {text : List Char} (absent : last ∉ text) : trimEnd last text = text := by
  change text.rdropWhile (· = last) = text
  rw [List.rdropWhile_eq_self_iff]
  intro nonempty
  simpa using fun same : text.getLast nonempty = last => absent (same ▸ List.getLast_mem nonempty)

theorem trimEnd_newline {text : List Char} (single : '\n' ∉ text) : trimEnd '\n' (text ++ ['\n']) = text := by
  change (text ++ ['\n']).rdropWhile (· = '\n') = text
  rw [List.rdropWhile_concat_pos _ _ _ (by simp)]
  exact trimEnd_absent single

theorem slice_line {source : String} {before line behind : List Char} (whole : source.toList = before ++ (line ++ behind)) :
    slice? source ⟨utf8Len (above before), utf8Len before + utf8Len line⟩ = some (lead before ++ line) := by
  have parts : source.toList = above before ++ ((lead before ++ line) ++ behind) := by
    rw [List.append_assoc, ← List.append_assoc, above_lead, whole]
  have found := slice_at parts
  rwa [← List.append_assoc, above_lead, String.utf8Len_append] at found

theorem lineText_trimmed {source : String} {before behind : List Char} (whole : source.toList = before ++ behind) :
    lineText source (lineOf before) = String.ofList (trimEnd '\r' (lead before ++ onLine behind)) := by
  obtain ⟨front, back, starts, divides⟩ := LineIndex.starts_at whole
  have start : (LineIndex.ofSource source).starts[before.count '\n']? = some (utf8Len (above before)) := by
    rw [starts, List.getElem?_toArray]
    exact divides.start
  have next : (LineIndex.ofSource source).starts[before.count '\n' + 1]? = back.head? := by
    rw [starts, List.getElem?_toArray, List.getElem?_append_right (by rw [divides.count, lineOf]), divides.count, lineOf,
      Nat.sub_self, List.head?_eq_getElem?]
  have single : '\n' ∉ lead before ++ onLine behind := by
    rw [List.mem_append, not_or]
    exact ⟨plain_lead before, plain_onLine behind⟩
  rw [lineText, lineOf, LineIndex.lineText]
  simp only [start, next, divides.next, show (LineIndex.ofSource source).source = source from rfl]
  by_cases more : '\n' ∈ behind
  · obtain ⟨rest, same⟩ := onLine_split more
    have parts : source.toList = before ++ ((onLine behind ++ ['\n']) ++ rest) := by
      rw [List.append_assoc, List.singleton_append, ← same, whole]
    have piece := slice_line parts
    rw [String.utf8Len_append, ← Nat.add_assoc, ← List.append_assoc] at piece
    change slice? source ⟨utf8Len (above before), utf8Len before + utf8Len (onLine behind) + 1⟩ = _ at piece
    rw [if_pos more, Option.getD_some, piece, Option.getD_some, trimEnd_newline single]
  · have parts : source.toList = before ++ (behind ++ []) := by rw [List.append_nil, whole]
    have piece := slice_line parts
    rw [onLine_whole more] at single ⊢
    rw [if_neg more, Option.getD_none, size_at whole, piece, Option.getD_some, trimEnd_absent single]

theorem lineText_at {source : String} {before behind : List Char} (whole : source.toList = before ++ behind)
    (plain : '\r' ∉ source.toList) :
    lineText source (lineOf before) = String.ofList (lead before ++ onLine behind) := by
  have kept : '\r' ∉ lead before ++ onLine behind := by
    rw [whole] at plain
    intro present
    rcases List.mem_append.mp present with left | right
    · exact plain (List.mem_append_left _ ((List.rtakeWhile_suffix _ _).subset left))
    · exact plain (List.mem_append_right _ ((List.takeWhile_prefix _).subset right))
  rw [lineText_trimmed whole, trimEnd_absent kept]

theorem width_at {source : String} {before text behind : List Char} (whole : source.toList = before ++ (text ++ behind)) :
    width source ⟨utf8Len before, utf8Len (before ++ text)⟩ = max 1 text.length := by
  have size := size_at whole
  rw [String.utf8Len_append] at size
  have stop : min (utf8Len (before ++ text)) source.utf8ByteSize = utf8Len (before ++ text) := by
    rw [size, String.utf8Len_append]
    omega
  have start : min (utf8Len before) (utf8Len (before ++ text)) = utf8Len before := by
    rw [String.utf8Len_append]
    omega
  rw [width]
  simp only [stop, start, slice_at whole, Option.map_some, Option.getD_some]

end StackScript.Text
