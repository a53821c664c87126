import StackScript.Proofs.Token.Longest
import StackScript.Proofs.Token.Ordered

-- Lexemes cover a source up to blanks and comments: each stands as it is written, as far as it goes, and nothing else stands
-- before, between or behind them.
namespace StackScript

open String (utf8Len)

-- The range is that of some text in the source, with the rest of the source behind.
def Span.Covers (source : List Char) (s : Span) (text behind : List Char) : Prop :=
  ∃ before, source = before ++ (text ++ behind) ∧ s = ⟨utf8Len before, utf8Len (before ++ text)⟩

-- What lies outside of lexemes: before, between and behind them.
def gaps (stop : Nat) : (start : Nat) → List Lexeme → List Span
  | start, [] => [⟨start, stop⟩]
  | start, l :: rest => ⟨start, l.span.start⟩ :: gaps stop l.span.stop rest

structure Tiles (source : String) (ls : List Lexeme) : Prop extends Ordered ls where
  inside : ∀ l ∈ ls, l.span.Lies source.toList
  written : ∀ l ∈ ls, ∃ text behind, l.span.Covers source.toList text behind ∧ l.token.Written text ∧
    l.token.continues behind = false ∧ Longest text behind
  between : ∀ gap ∈ gaps source.utf8ByteSize 0 ls, ∃ text behind, gap.Covers source.toList text behind ∧
    Skipped text behind

-- A text that stands at an offset, from left to right.
inductive Tiled : (offset : Nat) → List Char → List Lexeme → Prop where
  | done {offset : Nat} {gap : List Char} : Skipped gap [] → Tiled offset gap []
  | lexeme {offset : Nat} {gap text behind : List Char} {t : Token} {ls : List Lexeme} : Skipped gap (text ++ behind) →
      t.Written text → t.continues behind = false → Tiled (offset + utf8Len gap + utf8Len text) behind ls →
      Tiled offset (gap ++ (text ++ behind))
        (⟨t, ⟨offset + utf8Len gap, offset + utf8Len gap + utf8Len text⟩⟩ :: ls)

theorem Skipped.append {text more behind : List Char} (first : Skipped text (more ++ behind)) (next : Skipped more behind) :
    Skipped (text ++ more) behind := by
  generalize same : more ++ behind = rest at first
  induction first with
  | nil => exact next
  | blank blank _ ih => exact .blank blank (ih same)
  | @comment body text rest plain ended _ ih =>
    subst same
    rw [List.cons_append, List.cons_append, List.append_assoc]
    refine .comment plain ?_ (ih rfl)
    rw [List.append_assoc]
    exact ended

theorem Tiled.skip {offset : Nat} {text behind : List Char} {ls : List Lexeme} (skipped : Skipped text behind)
    (tiled : Tiled (offset + utf8Len text) behind ls) : Tiled offset (text ++ behind) ls := by
  cases tiled with
  | done gap =>
    refine .done (.append ?_ gap)
    rwa [List.append_nil]
  | @lexeme _ gap word behind t ls between written whole rest =>
    have length : utf8Len (text ++ gap) = utf8Len text + utf8Len gap := String.utf8Len_append _ _
    have tiled := @Tiled.lexeme offset _ _ _ _ _ (skipped.append between) written whole (by rwa [length, ← Nat.add_assoc])
    rwa [length, ← Nat.add_assoc, List.append_assoc] at tiled

theorem Tiled.behind {offset : Nat} {text behind : List Char} {t : Token} {ls : List Lexeme}
    (tiled : Tiled (offset + utf8Len text) behind ls) (written : t.Written text) (whole : t.continues behind = false) :
    Tiled offset (text ++ behind) (⟨t, ⟨offset, offset + utf8Len text⟩⟩ :: ls) :=
  @Tiled.lexeme offset [] text behind t ls .nil written whole tiled

-- By induction on the scan, with what is read already in front.
theorem Scan.lexemesFrom_tiled {found : Array Lexeme} (offset : Nat) (read : Array Lexeme) (text : List Char)
    (scanned : lexemesFrom offset read text = .ok found) : ∃ ls, found.toList = read.toList ++ ls ∧ Tiled offset text ls := by
  fun_induction lexemesFrom offset read text with
  | case1 offset read =>
    cases scanned
    exact ⟨[], by simp, .done .nil⟩
  | case2 offset read c rest taken text stop same ih =>
    obtain ⟨ls, all, tiled⟩ := ih scanned
    refine ⟨ls, all, ?_⟩
    have split : c :: rest = text ++ rest.drop taken := front_splits [] c rest taken
    rw [show stop = offset + utf8Len text from congrArg _ (byteCount_eq text)] at tiled
    rw [split]
    exact .skip (front_skipped same) tiled
  | case3 offset read c rest taken text stop t same ih =>
    obtain ⟨ls, all, tiled⟩ := ih scanned
    refine ⟨⟨t, ⟨offset, stop⟩⟩ :: ls, by rw [all, Array.toList_push, List.append_assoc, List.singleton_append], ?_⟩
    obtain ⟨written, whole⟩ := front_written same
    have split : c :: rest = text ++ rest.drop taken := front_splits [] c rest taken
    rw [show stop = offset + utf8Len text from congrArg _ (byteCount_eq text)] at tiled ⊢
    rw [split]
    exact tiled.behind written whole
  | case4 => cases scanned

-- A lexeme is written in its place, and between lexemes is only what is skipped. By induction on the rest of the source.
theorem Tiled.covers {source before text : List Char} {offset : Nat} {ls : List Lexeme} (tiled : Tiled offset text ls)
    (whole : source = before ++ text) (here : offset = utf8Len before) :
    (∀ l ∈ ls, ∃ text behind, l.span.Covers source text behind ∧ l.token.Written text ∧ l.token.continues behind = false) ∧
    ∀ gap ∈ gaps (utf8Len source) offset ls, ∃ text behind, gap.Covers source text behind ∧ Skipped text behind := by
  induction tiled generalizing before with
  | done skipped =>
    refine ⟨by simp, ?_⟩
    intro gap present
    rw [List.mem_singleton.mp present]
    exact ⟨_, [], ⟨before, by rw [whole, List.append_nil], by rw [here, whole]⟩, skipped⟩
  | @lexeme offset gap text behind t ls skipped written alone _ ih =>
    have place : offset + utf8Len gap = utf8Len (before ++ gap) := by rw [here, String.utf8Len_append]
    have stop : offset + utf8Len gap + utf8Len text = utf8Len (before ++ gap ++ text) := by
      rw [place, String.utf8Len_append _ text]
    have parts : source = before ++ gap ++ text ++ behind := by rw [whole]; simp only [List.append_assoc]
    obtain ⟨lexemes, between⟩ := ih parts stop
    constructor
    · rw [List.forall_mem_cons]
      refine ⟨⟨text, behind, ⟨before ++ gap, by rw [whole, List.append_assoc], ?_⟩, written, alone⟩, lexemes⟩
      rw [stop, place]
    · rw [gaps, List.forall_mem_cons]
      refine ⟨⟨gap, text ++ behind, ⟨before, whole, ?_⟩, skipped⟩, between⟩
      rw [here, String.utf8Len_append]

-- The lexemes of a source lie in it one behind the other, from a character to a character. Each is written as its token is,
-- and what stands behind is no part of it: no letter, digit or underscore behind a word, no digit behind a number; nor does
-- any pattern match more at its place. All other text is blanks and comments.
theorem lexemes_tile {source : String} {found : Array Lexeme} (scanned : lexemes source = .ok found) :
    Tiles source found.toList := by
  obtain ⟨ls, all, tiled⟩ := Scan.lexemesFrom_tiled 0 #[] source.toList scanned
  rw [Array.toList_empty, List.nil_append] at all
  obtain ⟨written, between⟩ := tiled.covers (List.nil_append source.toList).symm rfl
  have placed := lexemes_placed source
  rw [scanned] at placed
  rw [← all] at written between
  rw [String.utf8Len_toList] at between
  refine ⟨lexemes_ordered scanned, fun l present => placed l (Array.mem_toList_iff.mp present), ?_, between⟩
  intro l present
  obtain ⟨text, behind, covers, spelled, alone⟩ := written l present
  exact ⟨text, behind, covers, spelled, alone, spelled.longest alone⟩

-- Neighbours that could run together, and quotes and slashes inside of others.
theorem lexemes_tile_crowded :
    lexemes "lets<=1.5//\"\n\"\\\"//\"" = .ok #[⟨.identifier "lets", ⟨0, 4⟩⟩, ⟨.lessEqual, ⟨4, 6⟩⟩,
      ⟨.float (.ofRatio 15 10), ⟨6, 9⟩⟩, ⟨.string "\"//", ⟨13, 19⟩⟩] ∧
    Tiles "lets<=1.5//\"\n\"\\\"//\"" [⟨.identifier "lets", ⟨0, 4⟩⟩, ⟨.lessEqual, ⟨4, 6⟩⟩,
      ⟨.float (.ofRatio 15 10), ⟨6, 9⟩⟩, ⟨.string "\"//", ⟨13, 19⟩⟩] := by
  have scanned : lexemes "lets<=1.5//\"\n\"\\\"//\"" = .ok #[⟨.identifier "lets", ⟨0, 4⟩⟩, ⟨.lessEqual, ⟨4, 6⟩⟩,
      ⟨.float (.ofRatio 15 10), ⟨6, 9⟩⟩, ⟨.string "\"//", ⟨13, 19⟩⟩] := by decide +kernel
  exact ⟨scanned, lexemes_tile scanned⟩

end StackScript
