import Mathlib.Data.List.Basic
import Mathlib.Data.List.TakeWhile
import NameLookup.Diagnostic.Basic

/-!
# Lines and columns, byte by byte

A line map is made from the characters of a text, while offsets count bytes. In UTF-8 a line feed is
a byte that occurs in no other character (`lineFeed_not_mem_utf8EncodeChar`), so the breaks of a text
are the places after that byte (`breaks_ofText`). Hence the line of an offset is the number of line
feeds before it, and its column counts from the last of them (`locate_ofText`).

Whatever the breaks are, a later offset comes to a later line and column (`locate_before`), so no
diagnostic ends before it starts (`Diagnostic.lineCols_ordered`).
-/

set_option autoImplicit false

namespace NameLookup

/-- An earlier line, or an earlier column of the same line. -/
def LineCol.Before (p q : LineCol) : Prop :=
  p.line < q.line ∨ p.line = q.line ∧ p.column < q.column

namespace LineMap

variable {m : LineMap} {offset later : Nat}

/-! ## Any line map -/

/-- The offset at which each line starts. -/
def lineStarts (m : LineMap) : List Nat := 0 :: m.breaks

/-- The breaks that are not beyond an offset. -/
def passed (m : LineMap) (offset : Nat) : List Nat := m.breaks.takeWhile (· ≤ offset)

theorem line_locate : (m.locate offset).line = (m.passed offset).length := rfl

theorem column_locate :
    (m.locate offset).column = offset - (m.passed offset).getLastD 0 := rfl

theorem lastPassed_le : (m.passed offset).getLastD 0 ≤ offset := by
  rcases List.eq_nil_or_concat (m.passed offset) with hnil | ⟨bs, b, hlast⟩
  · rw [hnil]
    exact Nat.zero_le offset
  · have hmem : b ∈ m.passed offset := by
      rw [hlast, List.concat_eq_append]
      exact List.mem_append_right bs List.mem_cons_self
    rw [hlast, List.concat_eq_append, List.getLastD_concat]
    exact of_decide_eq_true (List.mem_takeWhile_imp (p := (· ≤ offset)) hmem)

/-- The line starts at the last break that was passed. -/
theorem lineStarts_locate :
    m.lineStarts[(m.locate offset).line]? = some ((m.passed offset).getLastD 0) := by
  obtain ⟨rest, hrest⟩ : m.passed offset <+: m.breaks := List.takeWhile_prefix _
  have hlast : (0 :: m.passed offset).getLast? = (0 :: m.passed offset)[(m.passed offset).length]? := by
    rw [List.getLast?_eq_getElem?]
    rfl
  rw [lineStarts, ← hrest, ← List.cons_append, line_locate,
    List.getElem?_append_left (Nat.lt_succ_self _), ← hlast, List.getLast?_cons,
    List.getLastD_eq_getLast?]

theorem passed_prefix (h : offset ≤ later) : m.passed offset <+: m.passed later := by
  have hboth : (m.passed later).takeWhile (· ≤ offset) = m.passed offset := by
    rw [passed, List.takeWhile_takeWhile]
    refine congrArg (m.breaks.takeWhile ·) (funext fun b => ?_)
    simp only [decide_eq_true_eq, decide_eq_decide]
    omega
  rw [← hboth]
  exact List.takeWhile_prefix _

/-- A later offset comes to a later line and column. -/
theorem locate_before (h : offset < later) : (m.locate offset).Before (m.locate later) := by
  have hprefix : m.passed offset <+: m.passed later := passed_prefix (Nat.le_of_lt h)
  rcases Nat.lt_or_ge (m.passed offset).length (m.passed later).length with hlt | hge
  · exact .inl hlt
  · have hsame : m.passed offset = m.passed later := hprefix.eq_of_length_le hge
    refine .inr ⟨congrArg List.length hsame, ?_⟩
    have hstart : (m.passed offset).getLastD 0 ≤ offset := lastPassed_le
    rw [column_locate, column_locate, ← hsame]
    omega

end LineMap

/-- No diagnostic ends at an earlier line and column than it starts. -/
theorem Diagnostic.lineCols_ordered (d : Diagnostic) (m : LineMap) :
    (d.lineCols m).1 = (d.lineCols m).2 ∨ (d.lineCols m).1.Before (d.lineCols m).2 := by
  rcases Nat.eq_or_lt_of_le d.range.start_le_stop with heq | hlt
  · exact .inl (congrArg m.locate heq)
  · exact .inr (LineMap.locate_before hlt)

namespace LineMap

/-! ## The line map of a text -/

/-- The byte that ends a line. -/
def lineFeed : UInt8 := 10

/-- The bytes of a text, in UTF-8. -/
def utf8 (text : String) : List UInt8 := text.toUTF8.data.toList

theorem utf8_eq_flatMap (text : String) :
    utf8 text = text.toList.flatMap String.utf8EncodeChar := by
  rw [utf8, String.toUTF8, ← String.utf8Encode_toList, List.utf8Encode,
    List.toList_data_toByteArray]

/-- A character of one byte is that byte, and the bytes of a longer one are all at least 128. -/
theorem lineFeed_not_mem_utf8EncodeChar {c : Char} (h : c ≠ '\n') :
    lineFeed ∉ String.utf8EncodeChar c := by
  have hval : c.val.toNat ≠ 10 := fun hc => h (Char.ext (UInt32.toNat_inj.1 hc))
  have hbyte : ∀ n : Nat, lineFeed = UInt8.ofNat n → n % 256 = 10 := fun n hn =>
    (UInt8.toNat_ofNat' (n := n)).symm.trans (congrArg UInt8.toNat hn).symm
  intro hmem
  unfold String.utf8EncodeChar at hmem
  simp only at hmem
  split at hmem
  · have hone := hbyte _ (List.mem_singleton.1 hmem)
    omega
  split at hmem
  · simp only [List.mem_cons, List.not_mem_nil, or_false] at hmem
    rcases hmem with hb | hb <;> have := hbyte _ hb <;> omega
  split at hmem
  · simp only [List.mem_cons, List.not_mem_nil, or_false] at hmem
    rcases hmem with hb | hb | hb <;> have := hbyte _ hb <;> omega
  · simp only [List.mem_cons, List.not_mem_nil, or_false] at hmem
    rcases hmem with hb | hb | hb | hb <;> have := hbyte _ hb <;> omega

theorem findIdxs_utf8EncodeChar (c : Char) (k : Nat) :
    (String.utf8EncodeChar c).findIdxs (· == lineFeed) k = if c = '\n' then [k] else [] := by
  split
  · next h =>
    subst h
    rfl
  · next h =>
    refine List.findIdxs_eq_nil_iff.2 fun b hb => beq_false_of_ne ?_
    rintro rfl
    exact lineFeed_not_mem_utf8EncodeChar h hb

theorem breaksFrom_eq (k : Nat) (cs : List Char) : breaksFrom k cs =
    ((cs.flatMap String.utf8EncodeChar).findIdxs (· == lineFeed) k).map (· + 1) := by
  induction cs generalizing k with
  | nil => rfl
  | cons c cs ih =>
    rw [List.flatMap_cons, List.findIdxs_append, String.length_utf8EncodeChar, List.map_append,
      ← ih, findIdxs_utf8EncodeChar]
    simp only [breaksFrom]
    split
    · next h =>
      subst h
      rfl
    · rfl

/-- A text breaks after each line feed. -/
theorem breaks_ofText (text : String) :
    (ofText text).breaks = ((utf8 text).findIdxs (· == lineFeed)).map (· + 1) := by
  rw [utf8_eq_flatMap]
  exact breaksFrom_eq 0 text.toList

theorem takeWhile_findIdxs {α : Type} (q : α → Bool) (xs : List α) (n k : Nat) :
    (xs.findIdxs q k).takeWhile (· < k + n) = (xs.take n).findIdxs q k := by
  induction xs generalizing n k with
  | nil => rw [List.take_nil, List.findIdxs_nil, List.takeWhile_nil]
  | cons x xs ih =>
    cases n with
    | zero =>
      rw [List.take_zero, List.findIdxs_nil]
      cases his : (x :: xs).findIdxs q k with
      | nil => rfl
      | cons i is =>
        have hi : k ≤ i := List.ge_of_mem_findIdxs i (his ▸ List.mem_cons_self)
        exact List.takeWhile_cons_of_neg (by simpa using hi)
    | succ n =>
      have htail := ih n (k + 1)
      rw [Nat.add_right_comm] at htail
      rw [List.take_succ_cons, List.findIdxs_cons, List.findIdxs_cons, ← htail]
      split
      · exact List.takeWhile_cons_of_pos (by simp)
      · rfl

/-- The breaks that are not beyond an offset come from the bytes before it. -/
theorem passed_ofText (text : String) (offset : Nat) : (ofText text).passed offset =
    (((utf8 text).take offset).findIdxs (· == lineFeed)).map (· + 1) := by
  rw [passed, breaks_ofText, List.takeWhile_map, ← takeWhile_findIdxs]
  refine congrArg (fun q => (((utf8 text).findIdxs (· == lineFeed)).takeWhile q).map (· + 1)) ?_
  funext i
  simp only [Function.comp_apply, decide_eq_decide]
  omega

/-! ## Lines of a text -/

/-- The line that holds `offset` starts at `start`: at the first byte or just after a line feed, with
no line feed from there to `offset`. -/
structure IsLineStart (bytes : List UInt8) (offset start : Nat) : Prop where
  le : start ≤ offset
  opens : start = 0 ∨ ∃ i, start = i + 1 ∧ bytes[i]? = some lineFeed
  unbroken : ∀ i, start ≤ i → i < offset → bytes[i]? ≠ some lineFeed

theorem mem_findIdxs_take {bytes : List UInt8} {offset i : Nat} :
    i ∈ (bytes.take offset).findIdxs (· == lineFeed) ↔ i < offset ∧ bytes[i]? = some lineFeed := by
  rw [List.mem_findIdxs_iff_exists_getElem_pos]
  constructor
  · rintro ⟨hi, hfeed⟩
    rw [List.length_take] at hi
    rw [List.getElem_take, beq_iff_eq] at hfeed
    exact ⟨by omega, by rw [List.getElem?_eq_getElem (by omega), hfeed]⟩
  · rintro ⟨hi, hfeed⟩
    obtain ⟨hlt, hfeed⟩ := List.getElem?_eq_some_iff.1 hfeed
    refine ⟨by rw [List.length_take]; omega, ?_⟩
    rw [List.getElem_take, hfeed, beq_self_eq_true]

theorem isLineStart_lastPassed (text : String) (offset : Nat) :
    IsLineStart (utf8 text) offset (((ofText text).passed offset).getLastD 0) := by
  have hle : ((ofText text).passed offset).getLastD 0 ≤ offset := lastPassed_le
  rw [passed_ofText] at hle ⊢
  have hsorted : (((utf8 text).take offset).findIdxs (· == lineFeed)).Pairwise (· < ·) :=
    List.pairwise_findIdxs
  have hmem : ∀ i, i ∈ ((utf8 text).take offset).findIdxs (· == lineFeed) ↔
      i < offset ∧ (utf8 text)[i]? = some lineFeed := fun _ => mem_findIdxs_take
  generalize ((utf8 text).take offset).findIdxs (· == lineFeed) = feeds at hle hsorted hmem ⊢
  rcases List.eq_nil_or_concat feeds with rfl | ⟨earlier, last, rfl⟩
  · exact ⟨hle, .inl rfl, fun i _ hi hfeed => List.not_mem_nil ((hmem i).2 ⟨hi, hfeed⟩)⟩
  · simp only [List.concat_eq_append] at hle hsorted hmem ⊢
    rw [List.map_append, List.map_singleton, List.getLastD_concat] at hle ⊢
    have hlast : (utf8 text)[last]? = some lineFeed :=
      ((hmem last).1 (List.mem_append_right _ List.mem_cons_self)).2
    refine ⟨hle, .inr ⟨last, rfl, hlast⟩, fun i hi hlt hfeed => ?_⟩
    -- a line feed after the last one would be listed before it
    rcases List.mem_append.1 ((hmem i).2 ⟨hlt, hfeed⟩) with hearlier | heq
    · have hbefore : i < last :=
        (List.pairwise_append.1 hsorted).2.2 i hearlier last List.mem_cons_self
      omega
    · obtain rfl : i = last := List.mem_singleton.1 heq
      omega

/-- The line of an offset, inside the text or past its end, is the number of line feeds before it, and
its column is its distance from the place after the last of them, or from the start of the text. So
the start of the line and the column make up the offset, and a later offset comes to a later line and
column. -/
theorem locate_ofText (text : String) (offset : Nat) :
    let m := ofText text
    let place := m.locate offset
    place.line = ((utf8 text).take offset).count lineFeed ∧
      (∃ start, IsLineStart (utf8 text) offset start ∧ place.column = offset - start ∧
        m.lineStarts[place.line]? = some start ∧ start + place.column = offset) ∧
      ∀ later, offset < later → place.Before (m.locate later) := by
  refine ⟨?_, ⟨_, isLineStart_lastPassed text offset, column_locate, lineStarts_locate, ?_⟩,
    fun later hlater => locate_before hlater⟩
  · rw [line_locate, passed_ofText, List.length_map, List.length_findIdxs, List.count]
  · rw [column_locate]
    exact Nat.add_sub_cancel' lastPassed_le

/-- Two lines, of which the first has a character of three bytes. -/
def arrowText : String := "a→b\nc"

/-- The end of the first line, and a place past the end of the text. -/
theorem locate_ofText_of_arrow :
    5 < 9 ∧ (ofText arrowText).locate 5 = ⟨0, 5⟩ ∧ (ofText arrowText).locate 9 = ⟨1, 3⟩ ∧
      ((ofText arrowText).locate 5).Before ((ofText arrowText).locate 9) := by
  obtain ⟨-, -, hlater⟩ := locate_ofText arrowText 5
  exact ⟨by decide, by decide, by decide, hlater 9 (by decide)⟩

end LineMap

end NameLookup
