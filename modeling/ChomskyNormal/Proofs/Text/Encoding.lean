import ChomskyNormal.Proofs.Text.Joining
import Mathlib.Data.List.Basic

/-!
# Lines of encoded texts

Whether a text is encoded first and then cut into lines, or cut first and each line encoded on its
own, comes to the same, as long as the marks at the ends of lines keep to themselves. In UTF-8 they
do: a byte below `0x80` is a whole character and no part of another one. So bytes are the encoding
of a text exactly when each of their lines is.

- `LineMarks.Kept` : encodings that leave the marks alone;
- `LineMarks.Kept.lines_flatMap` : the lines of an encoded text;
- `LineMarks.Kept.exists_text` : encoded lines make up an encoded text;
- `kept_utf8` : UTF-8 leaves the marks alone.
-/

namespace ChomskyNormal

variable {α β : Type}

/-- Each mark is encoded as the other mark, which is no part of the code of anything else. -/
structure LineMarks.Kept (code : α → List β) (marks : LineMarks α) (coded : LineMarks β) :
    Prop where
  lineFeed : code marks.lineFeed = [coded.lineFeed]
  carriageReturn : code marks.carriageReturn = [coded.carriageReturn]
  eq_lineFeed : ∀ {item : α}, coded.lineFeed ∈ code item → item = marks.lineFeed
  eq_carriageReturn : ∀ {item : α}, coded.carriageReturn ∈ code item → item = marks.carriageReturn
  ne_nil : ∀ item : α, code item ≠ []

/-! ## Pieces and lines -/

/-- What holds of all lines, and is not lost with a mark at the end, holds of all pieces. -/
theorem forall_pieces_of_forall_lines [DecidableEq α] {marks : LineMarks α}
    {P : List α → Prop} (hnil : P [])
    (hreturn : ∀ line, P line → P (line ++ [marks.carriageReturn])) {pieces : List (List α)}
    (h : ∀ line ∈ linesOfPieces marks pieces, P line) : ∀ piece ∈ pieces, P piece := by
  -- A line has lost a return, or is the piece itself.
  have hdrop : ∀ piece, P (dropReturn marks piece) → P piece := by
    intro piece hpiece
    unfold dropReturn at hpiece
    split at hpiece
    · next hlast =>
        rcases List.getLast?_eq_some_iff.1 hlast with ⟨front, rfl⟩
        rw [List.dropLast_concat] at hpiece
        exact hreturn front hpiece
    · exact hpiece
  fun_induction linesOfPieces marks pieces with
  | case1 => exact List.forall_mem_nil _
  | case2 => exact List.forall_mem_singleton.2 hnil
  | case3 last _ => exact h
  | case4 piece later _ ih =>
      rw [List.forall_mem_cons] at h ⊢
      exact ⟨hdrop piece h.1, ih h.2⟩

/-! ## Encoded lines -/

namespace LineMarks.Kept

variable {code : α → List β} {marks : LineMarks α} {coded : LineMarks β}

/-- Pieces that are each the code of something are so together. -/
theorem exists_intercalate (h : Kept code marks coded) {pieces : List (List β)}
    (hall : ∀ piece ∈ pieces, ∃ text : List α, piece = text.flatMap code) :
    ∃ text : List α, [coded.lineFeed].intercalate pieces = text.flatMap code := by
  induction pieces with
  | nil => exact ⟨[], rfl⟩
  | cons piece pieces ih =>
      rw [List.forall_mem_cons] at hall
      rcases hall.1 with ⟨first, rfl⟩
      cases pieces with
      | nil => exact ⟨first, List.intercalate_singleton⟩
      | cons next later =>
          rcases ih hall.2 with ⟨rest, hrest⟩
          refine ⟨first ++ marks.lineFeed :: rest, ?_⟩
          rw [List.intercalate_cons_cons, hrest, List.flatMap_append, List.flatMap_cons,
            h.lineFeed, List.append_assoc]

variable [DecidableEq β]

/-- When each line of some units is the code of a text, so are all units together. -/
theorem exists_text (h : Kept code marks coded) {units : List β}
    (hall : ∀ line ∈ lines coded units, ∃ text : List α, line = text.flatMap code) :
    ∃ text : List α, units = text.flatMap code := by
  have hreturn : ∀ line, (∃ text : List α, line = text.flatMap code) →
      ∃ text : List α, line ++ [coded.carriageReturn] = text.flatMap code := by
    rintro _ ⟨text, rfl⟩
    refine ⟨text ++ [marks.carriageReturn], ?_⟩
    rw [List.flatMap_append, List.flatMap_singleton, h.carriageReturn]
  have hpieces := forall_pieces_of_forall_lines ⟨[], rfl⟩ hreturn hall
  rcases h.exists_intercalate hpieces with ⟨text, htext⟩
  rw [intercalate_pieces] at htext
  exact ⟨text, htext⟩

variable [DecidableEq α]

theorem cut_flatMap (h : Kept code marks coded) (items : List α) :
    cut coded.lineFeed (items.flatMap code) =
      ((cut marks.lineFeed items).1.flatMap code,
        (cut marks.lineFeed items).2.map (List.flatMap code)) := by
  induction items with
  | nil => rfl
  | cons item items ih =>
      rw [List.flatMap_cons]
      by_cases hitem : item = marks.lineFeed
      · subst hitem
        rw [h.lineFeed, List.singleton_append]
        rw [cut_cons_self, cut_cons_self, ih]
        rfl
      · -- The code of another item has no line feed, so it goes to the front of a piece as a whole.
        rw [cut_append_of_not_mem fun hmem => hitem (h.eq_lineFeed hmem), ih,
          cut_cons_of_ne hitem]
        rfl

/-- Cutting a code gives the codes of the pieces. -/
theorem pieces_flatMap (h : Kept code marks coded) (items : List α) :
    pieces coded.lineFeed (items.flatMap code) =
      (pieces marks.lineFeed items).map (List.flatMap code) := by
  rw [pieces, h.cut_flatMap]
  rfl

theorem dropReturn_flatMap (h : Kept code marks coded) (line : List α) :
    dropReturn coded (line.flatMap code) = (dropReturn marks line).flatMap code := by
  rcases List.eq_nil_or_concat' line with rfl | ⟨front, last, rfl⟩
  · rfl
  · rw [List.flatMap_append, List.flatMap_singleton]
    by_cases hlast : last = marks.carriageReturn
    · subst hlast
      rw [h.carriageReturn]
      simp [dropReturn]
    · have hkeep : (front.flatMap code ++ code last).getLast? ≠ some coded.carriageReturn := by
        rw [List.getLast?_append_of_ne_nil _ (h.ne_nil last)]
        exact fun hmark => hlast (h.eq_carriageReturn (List.mem_of_getLast? hmark))
      rw [dropReturn, if_neg hkeep]
      simp [dropReturn, hlast]

theorem linesOfPieces_map_flatMap (h : Kept code marks coded) (pieces : List (List α)) :
    linesOfPieces coded (pieces.map (List.flatMap code)) =
      (linesOfPieces marks pieces).map (List.flatMap code) := by
  fun_induction linesOfPieces marks pieces with
  | case1 => rfl
  | case2 => rfl
  | case3 last hlast =>
      have hcode : last.flatMap code ≠ [] := by
        rcases List.exists_mem_of_ne_nil _ hlast with ⟨item, hitem⟩
        exact fun hnil => h.ne_nil item (List.flatMap_eq_nil_iff.1 hnil item hitem)
      exact if_neg hcode
  | case4 piece later hlater ih =>
      cases later with
      | nil => exact absurd rfl hlater
      | cons next later => exact congrArg₂ List.cons (h.dropReturn_flatMap piece) ih

/-- The lines of a code are the codes of the lines. -/
theorem lines_flatMap (h : Kept code marks coded) (text : List α) :
    lines coded (text.flatMap code) = (lines marks text).map (List.flatMap code) := by
  rw [lines, h.pieces_flatMap, h.linesOfPieces_map_flatMap]
  rfl

end LineMarks.Kept

/-! ## UTF-8 -/

/-- A byte below `0x80` is a character of its own. -/
theorem toNat_eq_of_mem_utf8EncodeChar {c : Char} {byte : UInt8}
    (h : byte ∈ String.utf8EncodeChar c) (hbyte : byte.toNat < 0x80) :
    c.toNat = byte.toNat := by
  have hval : c.toNat = c.val.toNat := rfl
  simp only [String.utf8EncodeChar] at h
  split at h
  · rw [List.mem_singleton] at h
    rw [h, hval, UInt8.toNat_ofNat']
    omega
  · -- All bytes of a longer code have their top bit set.
    exfalso
    split at h
    · simp only [List.mem_cons, List.not_mem_nil, or_false] at h
      rcases h with rfl | rfl <;> rw [UInt8.toNat_ofNat'] at hbyte <;> omega
    · split at h
      · simp only [List.mem_cons, List.not_mem_nil, or_false] at h
        rcases h with rfl | rfl | rfl <;> rw [UInt8.toNat_ofNat'] at hbyte <;> omega
      · simp only [List.mem_cons, List.not_mem_nil, or_false] at h
        rcases h with rfl | rfl | rfl | rfl <;> rw [UInt8.toNat_ofNat'] at hbyte <;> omega

theorem kept_utf8 : LineMarks.Kept String.utf8EncodeChar .chars .bytes where
  lineFeed := by decide
  carriageReturn := by decide
  eq_lineFeed h := Char.toNat_inj.1 (toNat_eq_of_mem_utf8EncodeChar h (by decide))
  eq_carriageReturn h := Char.toNat_inj.1 (toNat_eq_of_mem_utf8EncodeChar h (by decide))
  ne_nil c := by
    rw [← List.length_pos_iff, String.length_utf8EncodeChar]
    exact c.utf8Size_pos

theorem toList_toUTF8 (text : String) :
    text.toUTF8.data.toList = text.toList.flatMap String.utf8EncodeChar := by
  have htext : text.toByteArray = text.toList.utf8Encode := by
    rw [← String.toByteArray_ofList, String.ofList_toList]
  rw [String.toUTF8_eq_toByteArray, htext, List.utf8Encode, List.data_toByteArray]

/-- Bytes are decoded to the text that they are the code of. -/
theorem fromUTF8?_eq_some_iff {bytes : ByteArray} {text : String} :
    String.fromUTF8? bytes = some text ↔ text.toUTF8 = bytes := by
  rw [String.toUTF8_eq_toByteArray]
  unfold String.fromUTF8?
  constructor
  · intro h
    split at h
    · cases h
      rfl
    · cases h
  · rintro rfl
    rw [dif_pos text.isValidUTF8]
    rfl

end ChomskyNormal
