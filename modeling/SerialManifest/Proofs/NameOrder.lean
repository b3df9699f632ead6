import Mathlib.Data.String.Basic
import SerialManifest.Scan.Scanner
import SerialManifest.Text.Utf8

namespace SerialManifest

namespace Text.Utf8

theorem ofNat_cons_lt {a b : Nat} {x y : List UInt8} (ha : a < 256) (hb : b < 256) (hle : a ≤ b)
    (h : a = b → x < y) : UInt8.ofNat a :: x < UInt8.ofNat b :: y := by
  rw [List.cons_lt_cons_iff, UInt8.lt_iff_toNat_lt, ← UInt8.toNat_inj, UInt8.toNat_ofNat_of_lt' ha,
    UInt8.toNat_ofNat_of_lt' hb]
  rcases Nat.lt_or_eq_of_le hle with hlt | heq
  · exact .inl hlt
  · exact .inr ⟨heq, h heq⟩

theorem toNat_lt_of_char (c : Char) : c.val.toNat < 0x110000 := by
  rcases c.valid with h | h
  · exact Nat.lt_trans h (by decide)
  · exact h.2

/-- Of two characters the smaller one has the smaller bytes, whatever follows them. -/
theorem utf8EncodeChar_append_lt {c d : Char} (h : c < d) (x y : List UInt8) :
    String.utf8EncodeChar c ++ x < String.utf8EncodeChar d ++ y := by
  have hlt : c.val.toNat < d.val.toNat := h
  have hc := toNat_lt_of_char c
  have hd := toNat_lt_of_char d
  unfold String.utf8EncodeChar
  generalize c.val.toNat = v at hlt hc
  generalize d.val.toNat = w at hlt hd
  dsimp only
  -- fewer bytes mean a smaller first byte; with as many bytes the first that differs decides
  split
  next hv =>
    split
    next => exact ofNat_cons_lt (by omega) (by omega) (by omega) (by omega)
    next => split <;> [skip; split] <;> exact ofNat_cons_lt (by omega) (by omega) (by omega) (by omega)
  next hv =>
    rw [if_neg (by omega : ¬ w ≤ 0x7f)]
    split
    next hv =>
      split
      next =>
        exact ofNat_cons_lt (by omega) (by omega) (by omega) fun _ =>
          ofNat_cons_lt (by omega) (by omega) (by omega) (by omega)
      next => split <;> exact ofNat_cons_lt (by omega) (by omega) (by omega) (by omega)
    next hv =>
      rw [if_neg (by omega : ¬ w ≤ 0x7ff)]
      split
      next hv =>
        split
        next =>
          exact ofNat_cons_lt (by omega) (by omega) (by omega) fun _ =>
            ofNat_cons_lt (by omega) (by omega) (by omega) fun _ =>
              ofNat_cons_lt (by omega) (by omega) (by omega) (by omega)
        next => exact ofNat_cons_lt (by omega) (by omega) (by omega) (by omega)
      next hv =>
        rw [if_neg (by omega : ¬ w ≤ 0xffff)]
        exact ofNat_cons_lt (by omega) (by omega) (by omega) fun _ =>
          ofNat_cons_lt (by omega) (by omega) (by omega) fun _ =>
            ofNat_cons_lt (by omega) (by omega) (by omega) fun _ =>
              ofNat_cons_lt (by omega) (by omega) (by omega) (by omega)

theorem flatMap_lt {first second : List Char} (h : first < second) :
    first.flatMap String.utf8EncodeChar < second.flatMap String.utf8EncodeChar := by
  induction h with
  | @nil c rest =>
    obtain ⟨byte, bytes, hb⟩ := List.exists_cons_of_ne_nil (String.utf8EncodeChar_ne_nil (c := c))
    rw [List.flatMap_nil, List.flatMap_cons, hb, List.cons_append]
    exact List.nil_lt_cons byte _
  | cons _ ih =>
    rw [List.flatMap_cons, List.flatMap_cons]
    exact List.append_left_lt ih
  | rel hlt =>
    rw [List.flatMap_cons, List.flatMap_cons]
    exact utf8EncodeChar_append_lt hlt _ _

theorem encode_lt {first second : String} (h : first < second) : encode first < encode second :=
  flatMap_lt (String.lt_iff_toList_lt.1 h)

end Text.Utf8

theorem pairwise_insertName {name : String} {names : List String} (h : names.Pairwise (· < ·)) :
    (insertName name names).Pairwise (· < ·) := by
  induction names with
  | nil => exact List.pairwise_singleton _ _
  | cons first rest ih =>
    obtain ⟨hfirst, hrest⟩ := List.pairwise_cons.1 h
    rw [insertName]
    split
    next hlt =>
      refine List.pairwise_cons.2 ⟨fun other ho => ?_, h⟩
      rcases List.mem_cons.1 ho with rfl | ho
      · exact hlt
      · exact hlt.trans (hfirst other ho)
    next hlt =>
      split
      next => exact h
      next hne =>
        refine List.pairwise_cons.2 ⟨fun other ho => ?_, ih hrest⟩
        rcases mem_insertName.1 ho with rfl | ho
        · exact lt_of_le_of_ne (not_lt.1 hlt) (Ne.symm hne)
        · exact hfirst other ho

theorem pairwise_foldl_insertName {α : Type} {name : α → String} {items : List α} {names : List String}
    (h : names.Pairwise (· < ·)) :
    (items.foldl (fun names item => insertName (name item) names) names).Pairwise (· < ·) := by
  induction items generalizing names with
  | nil => exact h
  | cons item items ih => exact ih (pairwise_insertName h)

theorem mem_foldl_insertName {α : Type} {name : α → String} {items : List α} {names : List String}
    {other : String} :
    other ∈ items.foldl (fun names item => insertName (name item) names) names ↔
      other ∈ names ∨ ∃ item ∈ items, name item = other := by
  induction items generalizing names with
  | nil => simp
  | cons item items ih =>
    rw [List.foldl_cons, ih, mem_insertName]
    simp only [List.exists_mem_cons_iff]
    rw [or_comm (a := other = name item), or_assoc, eq_comm (a := other)]

end SerialManifest
