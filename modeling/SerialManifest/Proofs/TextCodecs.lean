import SerialManifest.Proofs.NameOrder
import SerialManifest.Settings.Token
import SerialManifest.Text.Hex

namespace SerialManifest.Text

namespace Utf8

variable {low high : UInt8} {more value n : Nat} {rest : List UInt8}

theorem start_ofNat (hn : n < 256) : start (UInt8.ofNat n) =
    if n < 0x80 then ([some (Char.ofNat n)], .between)
    else if n < 0xC2 then ([none], .between)
    else if n < 0xE0 then ([], .inside 0x80 0xBF 0 (n - 0xC0))
    else if n < 0xF0 then
      ([], .inside (if n = 0xE0 then 0xA0 else 0x80) (if n = 0xED then 0x9F else 0xBF) 1 (n - 0xE0))
    else if n < 0xF5 then
      ([], .inside (if n = 0xF0 then 0x90 else 0x80) (if n = 0xF4 then 0x8F else 0xBF) 2 (n - 0xF0))
    else ([none], .between) := by
  have hb : (UInt8.ofNat n).toNat = n := UInt8.toNat_ofNat_of_lt' hn
  simp [start, UInt8.lt_iff_toNat_lt, ← UInt8.toNat_inj, hb, -UInt8.toNat_ofNat']

theorem pieces_ascii (hn : n < 0x80) :
    pieces .between (UInt8.ofNat n :: rest) = some (Char.ofNat n) :: pieces .between rest := by
  rw [pieces, start_ofNat (by omega), if_pos hn]
  rfl

theorem pieces_two (hlow : 2 ≤ n) (hhigh : n < 32) :
    pieces .between (UInt8.ofNat (n + 0xC0) :: rest) = pieces (.inside 0x80 0xBF 0 n) rest := by
  rw [pieces, start_ofNat (by omega), if_neg (by omega), if_neg (by omega), if_pos (by omega),
    Nat.add_sub_cancel, List.nil_append]

theorem pieces_three (hn : n < 16) :
    pieces .between (UInt8.ofNat (n + 0xE0) :: rest) =
      pieces (.inside (if n = 0 then 0xA0 else 0x80) (if n = 13 then 0x9F else 0xBF) 1 n) rest := by
  rw [pieces, start_ofNat (by omega), if_neg (by omega), if_neg (by omega), if_neg (by omega),
    if_pos (by omega), Nat.add_sub_cancel, List.nil_append]
  simp only [Nat.add_eq_right, Nat.reduceEqDiff]

theorem pieces_four (hn : n < 5) :
    pieces .between (UInt8.ofNat (n + 0xF0) :: rest) =
      pieces (.inside (if n = 0 then 0x90 else 0x80) (if n = 4 then 0x8F else 0xBF) 2 n) rest := by
  rw [pieces, start_ofNat (by omega), if_neg (by omega), if_neg (by omega), if_neg (by omega),
    if_neg (by omega), if_pos (by omega), Nat.add_sub_cancel, List.nil_append]
  simp only [Nat.add_eq_right, Nat.reduceEqDiff]

theorem between_ofNat (hn : n < 64) (hlow : low.toNat ≤ n + 0x80) (hhigh : n + 0x80 ≤ high.toNat) :
    low ≤ UInt8.ofNat (n + 0x80) ∧ UInt8.ofNat (n + 0x80) ≤ high := by
  rw [UInt8.le_iff_toNat_le, UInt8.le_iff_toNat_le, UInt8.toNat_ofNat_of_lt' (by unfold UInt8.size; omega)]
  exact ⟨hlow, hhigh⟩

theorem toNat_continuation (hn : n < 64) : (UInt8.ofNat (n + 0x80)).toNat - 0x80 = n := by
  rw [UInt8.toNat_ofNat_of_lt' (by unfold UInt8.size; omega), Nat.add_sub_cancel]

theorem pieces_last (hn : n < 64) (hlow : low.toNat ≤ n + 0x80) (hhigh : n + 0x80 ≤ high.toNat) :
    pieces (.inside low high 0 value) (UInt8.ofNat (n + 0x80) :: rest) =
      some (Char.ofNat (value * 64 + n)) :: pieces .between rest := by
  rw [pieces, if_pos (between_ofNat hn hlow hhigh), toNat_continuation hn]

theorem pieces_more (hn : n < 64) (hlow : low.toNat ≤ n + 0x80) (hhigh : n + 0x80 ≤ high.toNat) :
    pieces (.inside low high (more + 1) value) (UInt8.ofNat (n + 0x80) :: rest) =
      pieces (.inside 0x80 0xBF more (value * 64 + n)) rest := by
  rw [pieces, if_pos (between_ofNat hn hlow hhigh), toNat_continuation hn]

/-- A character is read from its bytes, whatever follows them. -/
theorem pieces_utf8EncodeChar (c : Char) (rest : List UInt8) :
    pieces .between (String.utf8EncodeChar c ++ rest) = some c :: pieces .between rest := by
  have hc : Char.ofNat c.val.toNat = c := Char.ofNat_toNat c
  have hv : c.val.toNat < 0xD800 ∨ 0xDFFF < c.val.toNat ∧ c.val.toNat < 0x110000 := c.valid
  unfold String.utf8EncodeChar
  generalize c.val.toNat = v at hc hv
  subst hc
  dsimp only
  -- one, two, three or four bytes; only the second one may be further bounded
  split
  next => exact pieces_ascii (by omega)
  split
  next =>
    have hvalue : v / 64 % 32 * 64 + v % 64 = v := by omega
    rw [List.cons_append, List.singleton_append, pieces_two (by omega) (by omega),
      pieces_last (by omega) (by simp) (by simp; omega), hvalue]
  split
  next =>
    have hvalue : (v / 4096 % 16 * 64 + v / 64 % 64) * 64 + v % 64 = v := by omega
    rw [List.cons_append, List.cons_append, List.singleton_append, pieces_three (by omega),
      pieces_more (by omega) (by split <;> simp; omega) (by split <;> simp <;> omega),
      pieces_last (by omega) (by simp) (by simp; omega), hvalue]
  next =>
    have hvalue : ((v / 262144 % 8 * 64 + v / 4096 % 64) * 64 + v / 64 % 64) * 64 + v % 64 = v := by omega
    rw [List.cons_append, List.cons_append, List.cons_append, List.singleton_append, pieces_four (by omega),
      pieces_more (by omega) (by split <;> simp; omega) (by split <;> simp <;> omega),
      pieces_more (by omega) (by simp) (by simp; omega),
      pieces_last (by omega) (by simp) (by simp; omega), hvalue]

theorem pieces_flatMap (chars : List Char) :
    pieces .between (chars.flatMap String.utf8EncodeChar) = chars.map some := by
  induction chars with
  | nil => rfl
  | cons c chars ih => rw [List.flatMap_cons, pieces_utf8EncodeChar, ih, List.map_cons]

theorem decode?_encode (text : String) : decode? (encode text) = some text := by
  have hall : (text.toList.map some).mapM id = some text.toList := by
    induction text.toList <;> simp_all
  rw [decode?, encode, pieces_flatMap, hall, Option.map_some, String.ofList_toList]

end Utf8

/-- What characters of a kind are followed by: nothing, or a character of another kind. -/
def Ends (kind : Char → Bool) (rest : List Char) : Prop :=
  ∀ c ∈ rest.head?, kind c = false

section

variable {kind : Char → Bool} {chars rest : List Char}

theorem Ends.takeWhile_append (ends : Ends kind rest) (hall : ∀ c ∈ chars, kind c = true) :
    (chars ++ rest).takeWhile kind = chars := by
  rw [List.takeWhile_append_of_pos hall]
  cases rest with
  | nil => simp
  | cons c rest => rw [List.takeWhile_cons_of_neg (by simp [ends c rfl]), List.append_nil]

theorem Ends.dropWhile_append (ends : Ends kind rest) (hall : ∀ c ∈ chars, kind c = true) :
    (chars ++ rest).dropWhile kind = rest := by
  rw [List.dropWhile_append_of_pos hall]
  cases rest with
  | nil => rfl
  | cons c rest => rw [List.dropWhile_cons_of_neg (by simp [ends c rfl])]

end

open Settings.Token (hexDigit? characterOfHex?)

def numberOfHex? (digits : List Char) : Option Nat :=
  (digits.mapM hexDigit?).map (·.foldl (fun value digit => value * 16 + digit) 0)

theorem characterOfHex?_eq (digits : List Char) :
    characterOfHex? digits =
      (numberOfHex? digits).bind fun n => if n.isValidChar then some (Char.ofNat n) else none := by
  unfold characterOfHex? numberOfHex?
  cases digits.mapM hexDigit? <;> rfl

theorem hexDigit?_digitChar : ∀ n < 16, hexDigit? (Nat.digitChar n) = some n := by
  decide

theorem numberOfHex?_append_digitChar (digits : List Char) {n : Nat} (hn : n < 16) :
    numberOfHex? (digits ++ [Nat.digitChar n]) = (numberOfHex? digits).map (· * 16 + n) := by
  unfold numberOfHex?
  rw [List.mapM_append]
  cases digits.mapM hexDigit? <;> simp [hexDigit?_digitChar n hn]

theorem numberOfHex?_hex (width n : Nat) : numberOfHex? (hex width n) = some (n % 16 ^ width) := by
  induction width generalizing n with
  | zero => simp [hex, numberOfHex?, Nat.mod_one]
  | succ width ih =>
    rw [hex, numberOfHex?_append_digitChar _ (Nat.mod_lt n (by decide)), ih, Option.map_some, Nat.pow_succ',
      Nat.mod_mul, Nat.mul_comm, Nat.add_comm]

end SerialManifest.Text
