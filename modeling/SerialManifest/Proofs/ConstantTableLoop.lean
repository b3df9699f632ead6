import SerialManifest.Proofs.ConstantPoolLanguage
import SerialManifest.Proofs.TruncatedClassFile

namespace SerialManifest.ClassFile

open Decoder (Accepts Takes)

variable {α β : Type}

namespace Decoder

/-- The decoder fails for want of bytes only. Those that are left are then the beginning of some that it
accepts. -/
def FailsShort (decoder : Decoder α) (language : List UInt8 → α → Prop) : Prop :=
  ∀ cursor error, decoder cursor = .error error →
    ∃ place, error = .truncated place ∧ cursor.offset ≤ place ∧ place ≤ cursor.finish ∧
      ∃ more value, more ≠ [] ∧ language (cursor.rest ++ more) value

namespace FailsShort

variable {decoder : Decoder α} {language other : List UInt8 → α → Prop}

theorem congr (h : decoder.FailsShort language) (he : ∀ bytes value, language bytes value → other bytes value) :
    decoder.FailsShort other := by
  intro cursor error hrun
  obtain ⟨place, hp, hlow, hhigh, more, value, hne, hl⟩ := h cursor error hrun
  exact ⟨place, hp, hlow, hhigh, more, value, hne, he _ _ hl⟩

theorem bind {next : α → Decoder β} {rest : α → List UInt8 → β → Prop} (h : decoder.FailsShort language)
    (accepts : decoder.Accepts language) (hn : ∀ value, (next value).FailsShort (rest value))
    (some : ∀ value, ∃ tail result, rest value tail result) :
    (decoder >>= next).FailsShort fun bytes result => ∃ value lead tail,
      language lead value ∧ rest value tail result ∧ bytes = lead ++ tail := by
  intro cursor error hrun
  rw [run_bind] at hrun
  cases hd : decoder cursor with
  | error first =>
    rw [hd] at hrun
    cases hrun
    obtain ⟨place, hp, hlow, hhigh, more, value, hne, hl⟩ := h cursor error hd
    obtain ⟨tail, result, ht⟩ := some value
    exact ⟨place, hp, hlow, hhigh, more ++ tail, result, List.append_ne_nil_of_left_ne_nil hne tail,
      value, _, tail, hl, ht, by rw [List.append_assoc]⟩
  | ok after =>
    obtain ⟨value, later⟩ := after
    rw [hd] at hrun
    have hrun : next value later = .error error := hrun
    obtain ⟨lead, hl, hrest, hoffset⟩ := (accepts cursor value later).1 hd
    obtain ⟨place, hp, hlow, hhigh, more, result, hne, ht⟩ := hn value later error hrun
    refine ⟨place, hp, by omega, ?_, more, result, hne, value, lead, _, hl, ht, by rw [hrest, List.append_assoc]⟩
    simp only [Cursor.finish, hrest, hoffset, List.length_append] at hhigh ⊢
    omega

theorem bind_pure (h : decoder.FailsShort language) (tell : α → β) :
    (decoder >>= fun value => Pure.pure (tell value)).FailsShort fun bytes result =>
      ∃ value, language bytes value ∧ result = tell value := by
  intro cursor error hrun
  rw [run_bind] at hrun
  cases hd : decoder cursor with
  | error first =>
    rw [hd] at hrun
    cases hrun
    obtain ⟨place, hp, hlow, hhigh, more, value, hne, hl⟩ := h cursor error hd
    exact ⟨place, hp, hlow, hhigh, more, tell value, hne, value, hl, rfl⟩
  | ok after =>
    rw [hd] at hrun
    cases hrun

end FailsShort

theorem take_failsShort (n : Nat) : (take n).FailsShort fun bytes value => bytes.length = n ∧ value = bytes := by
  intro cursor error hrun
  by_cases hn : cursor.rest.length < n
  · rw [take_eq_error hn] at hrun
    cases hrun
    refine ⟨cursor.offset, rfl, Nat.le_refl _, Nat.le_add_right _ _, List.replicate (n - cursor.rest.length) 0, _,
      ?_, ?_, rfl⟩
    · simp only [ne_eq, List.replicate_eq_nil_iff]
      omega
    · simp only [List.length_append, List.length_replicate]
      omega
  · have hlength : (cursor.rest.take n).length = n := by
      rw [List.length_take]
      omega
    simp only [take, hlength, ↓reduceIte] at hrun
    cases hrun

theorem unsigned_failsShort (n : Nat) :
    (unsigned n).FailsShort fun bytes value => value < 256 ^ n ∧ bytes = numeral n value := by
  refine ((take_failsShort n).bind_pure bigEndian).congr fun bytes value => ?_
  rintro ⟨_, ⟨rfl, rfl⟩, rfl⟩
  exact ⟨bigEndian_lt _, (numeral_bigEndian _).symm⟩

theorem skip_failsShort (n : Nat) : (skip n).FailsShort fun bytes _ => bytes.length = n := by
  refine ((take_failsShort n).bind_pure fun _ => ()).congr fun bytes value => ?_
  rintro ⟨_, ⟨hl, _⟩, _⟩
  exact hl

end Decoder

theorem skipped_failsShort {α : Type} (size : Nat) (value : α) :
    Decoder.FailsShort (do Decoder.skip size; return value) fun bytes found =>
      bytes.length = size ∧ found = value := by
  refine ((Decoder.skip_failsShort size).bind_pure fun _ => value).congr fun bytes found => ?_
  rintro ⟨_, hl, hf⟩
  exact ⟨hl, hf⟩

theorem text_failsShort : Decoder.FailsShort (do
    let length ← Decoder.u16
    return (Constant.text (Text.Utf8.decodeLossy (← Decoder.take length)), false))
    (Follows (some .text)) := by
  refine ((Decoder.unsigned_failsShort 2).bind (Decoder.unsigned_accepts 2) (fun length =>
    (Decoder.take_failsShort length).bind_pure fun text =>
      (Constant.text (Text.Utf8.decodeLossy text), false)) fun length => ?_).congr fun bytes found => ?_
  · exact ⟨List.replicate length 0, _, _, ⟨List.length_replicate, rfl⟩, rfl⟩
  · rintro ⟨_, _, _, ⟨hl, rfl⟩, ⟨text, ⟨rfl, rfl⟩, rfl⟩, rfl⟩
    exact ⟨text, hl, rfl, rfl⟩

theorem classRef_failsShort : Decoder.FailsShort (do return (Constant.classRef (← Decoder.u16), false))
    (Follows (some .classRef)) := by
  refine ((Decoder.unsigned_failsShort 2).bind_pure fun nameIndex => (Constant.classRef nameIndex, false)).congr
    fun bytes found => ?_
  rintro ⟨nameIndex, ⟨hlt, rfl⟩, rfl⟩
  have hn : (UInt16.ofNat nameIndex).toNat = nameIndex := UInt16.toNat_ofNat_of_lt' hlt
  exact ⟨UInt16.ofNat nameIndex, by rw [hn], by rw [hn]⟩

def UnknownTag (tag : UInt8) : Prop :=
  ∀ stored : StoredConstant, stored.encode.head? ≠ some tag

/-- The bytes are the beginning of a constant that goes on. -/
def CutShort (bytes : List UInt8) : Prop :=
  ∃ (stored : StoredConstant) (more : List UInt8), more ≠ [] ∧ stored.encode = bytes ++ more

theorem numeral_one (tag : UInt8) : numeral 1 tag.toNat = [tag] := by
  simp [numeral]

theorem cutShort_nil : CutShort [] :=
  ⟨.classRef 0, _, List.cons_ne_nil _ _, rfl⟩

theorem exists_follows (layout : Layout) : ∃ tail found, Follows (some layout) tail found := by
  cases layout with
  | text => exact ⟨_, _, [], by decide, rfl, rfl⟩
  | classRef => exact ⟨_, _, 0, rfl, rfl⟩
  | plain size => exact ⟨List.replicate size 0, _, List.length_replicate, rfl⟩
  | wide size => exact ⟨List.replicate size 0, _, List.length_replicate, rfl⟩

theorem unknownTag_iff {tag : UInt8} : UnknownTag tag ↔ Layout.ofTag? tag.toNat = none := by
  constructor
  · intro h
    cases hl : Layout.ofTag? tag.toNat with
    | none => rfl
    | some layout =>
      obtain ⟨tail, found, hf⟩ := exists_follows layout
      obtain ⟨stored, he, _⟩ := exists_stored_of_follows tag.toNat_lt (hl ▸ hf)
      refine absurd ?_ (h stored)
      rw [← he, numeral_one]
      rfl
  · intro h stored hs
    obtain ⟨other, tail, hlt, hf, he⟩ := follows_of_stored stored
    have hbyte : (UInt8.ofNat other).toNat = other := UInt8.toNat_ofNat_of_lt' hlt
    have hother : UInt8.ofNat other = tag := by
      rw [he, ← hbyte, numeral_one] at hs
      exact Option.some.inj hs
    rw [← hother, hbyte] at h
    rw [h] at hf
    exact hf

theorem u8_takes (tag : UInt8) : Decoder.u8.Takes [tag] tag.toNat :=
  (Decoder.unsigned_accepts 1).takes ⟨tag.toNat_lt, (numeral_one tag).symm⟩

theorem constant_of_unknownTag {tag : UInt8} (h : UnknownTag tag) (index : Nat) (rest : List UInt8) (offset : Nat) :
    constant index ⟨tag :: rest, offset⟩ = .error (.unknownTag tag.toNat index) := by
  rw [constant, ← List.singleton_append, (u8_takes tag).run_bind, unknownTag_iff.1 h]
  rfl

theorem behindTag_fails {layout : Layout} {decoder : Decoder (Constant × Bool)}
    (h : decoder.FailsShort (Follows (some layout))) {tag : UInt8} (hl : Layout.ofTag? tag.toNat = some layout)
    {tail : List UInt8} {offset : Nat} {error : FormatError} (hrun : decoder ⟨tail, offset + 1⟩ = .error error) :
    ∃ place, error = .truncated place ∧ offset ≤ place ∧ place ≤ offset + (tag :: tail).length ∧
      CutShort (tag :: tail) := by
  obtain ⟨place, hp, hlow, hhigh, more, found, hne, hf⟩ := h _ _ hrun
  obtain ⟨stored, he, _⟩ := exists_stored_of_follows tag.toNat_lt (hl ▸ hf)
  rw [numeral_one] at he
  simp only [Cursor.finish] at hlow hhigh
  refine ⟨place, hp, by omega, ?_, stored, more, hne, he.symm⟩
  rw [List.length_cons]
  omega

theorem constant_fails {index : Nat} {cursor : Cursor} {error : FormatError}
    (h : constant index cursor = .error error) :
    (∃ place, error = .truncated place ∧ cursor.offset ≤ place ∧ place ≤ cursor.finish ∧
        CutShort cursor.rest) ∨
      ∃ tag tail, cursor.rest = tag :: tail ∧ error = .unknownTag tag.toNat index ∧ UnknownTag tag := by
  obtain ⟨rest, offset⟩ := cursor
  cases rest with
  | nil =>
    cases h
    exact .inl ⟨offset, rfl, Nat.le_refl _, Nat.le_refl _, cutShort_nil⟩
  | cons tag tail =>
    cases hl : Layout.ofTag? tag.toNat with
    | none =>
      have hu := unknownTag_iff.2 hl
      rw [constant_of_unknownTag hu] at h
      cases h
      exact .inr ⟨tag, tail, rfl, rfl, hu⟩
    | some layout =>
      rw [constant, ← List.singleton_append, (u8_takes tag).run_bind, hl] at h
      left
      cases layout with
      | text => exact behindTag_fails text_failsShort hl h
      | classRef => exact behindTag_fails classRef_failsShort hl h
      | plain size => exact behindTag_fails (skipped_failsShort size _) hl h
      | wide size => exact behindTag_fails (skipped_failsShort size _) hl h

/-- The table while it is filled: the slots so far, the number of the next one, and what is left to read. -/
structure Filling where
  slots : List Constant
  index : Nat
  cursor : Cursor

namespace Filling

def start (cursor : Cursor) : Filling :=
  ⟨[.unused], 1, cursor⟩

/-- One turn of the loop: a constant is read, and counted once more if it takes up a second slot. -/
def turn (filling : Filling) : Except FormatError Filling :=
  match constant filling.index filling.cursor with
  | .error error => .error error
  | .ok ((found, wide), later) =>
    if wide then .ok ⟨filling.slots ++ [found] ++ [.unused], filling.index + 1 + 1, later⟩
    else .ok ⟨filling.slots ++ [found], filling.index + 1, later⟩

/-- What a turn can come to: the next constant is read, the bytes end within it, or its tag is unknown. -/
inductive Turns (filling : Filling) : Except FormatError Filling → Prop where
  | read (stored : StoredConstant) (rest : List UInt8) (h : filling.cursor.rest = stored.encode ++ rest) :
    Turns filling (.ok ⟨filling.slots ++ stored.slots, filling.index + stored.width,
      ⟨rest, filling.cursor.offset + stored.encode.length⟩⟩)
  | ranOut (place : Nat) (behind : filling.cursor.offset ≤ place) (among : place ≤ filling.cursor.finish)
    (h : CutShort filling.cursor.rest) : Turns filling (.error (.truncated place))
  | unknown (tag : UInt8) (rest : List UInt8) (h : filling.cursor.rest = tag :: rest) (unknown : UnknownTag tag) :
    Turns filling (.error (.unknownTag tag.toNat filling.index))

theorem turn_of_stored {stored : StoredConstant} (slots : List Constant) (index : Nat) (rest : List UInt8)
    (offset : Nat) : turn ⟨slots, index, ⟨stored.encode ++ rest, offset⟩⟩ =
      .ok ⟨slots ++ stored.slots, index + stored.width, ⟨rest, offset + stored.encode.length⟩⟩ := by
  have hrun := (constant_accepts index).takes ⟨stored, rfl, rfl⟩ rest offset
  rw [turn, hrun]
  rcases width_eq stored with hw | hw <;> simp [StoredConstant.slots, hw]

theorem turn_of_unknownTag {tag : UInt8} (h : UnknownTag tag) (slots : List Constant) (index : Nat)
    (rest : List UInt8) (offset : Nat) :
    turn ⟨slots, index, ⟨tag :: rest, offset⟩⟩ = .error (.unknownTag tag.toNat index) := by
  rw [turn, constant_of_unknownTag h]

theorem turns (filling : Filling) : filling.Turns filling.turn := by
  obtain ⟨slots, index, cursor⟩ := filling
  cases h : constant index cursor with
  | error error =>
    have hturn : turn ⟨slots, index, cursor⟩ = .error error := by rw [turn, h]
    rw [hturn]
    rcases constant_fails h with ⟨place, rfl, hlow, hhigh, hc⟩ | ⟨tag, rest, hr, rfl, hu⟩
    · exact .ranOut place hlow hhigh hc
    · exact .unknown tag rest hr hu
  | ok after =>
    obtain ⟨found, later⟩ := after
    obtain ⟨_, ⟨stored, rfl, rfl⟩, hrest, _⟩ := (constant_accepts index cursor found later).1 h
    obtain ⟨rest, offset⟩ := cursor
    have hrest : rest = stored.encode ++ later.rest := hrest
    subst hrest
    rw [turn_of_stored]
    exact .read stored later.rest rfl

theorem index_lt_of_turn {filling next : Filling} (h : filling.turn = .ok next) : filling.index < next.index := by
  have hturns := filling.turns
  rw [h] at hturns
  cases hturns with
  | read stored rest _ => exact Nat.lt_add_of_pos_right stored.width_pos

/-- The loop, as long as there are slots to fill. -/
def fill (count : Nat) (filling : Filling) : Except FormatError Filling :=
  if filling.index < count then
    match _ : filling.turn with
    | .error error => .error error
    | .ok next => fill count next
  else .ok filling
termination_by count - filling.index
decreasing_by
  have := index_lt_of_turn ‹_›
  omega

variable {count : Nat} {filling next : Filling} {cursor : Cursor}

theorem fill_of_le (h : count ≤ filling.index) : fill count filling = .ok filling := by
  rw [fill, if_neg (Nat.not_lt.2 h)]

theorem fill_of_turn (h : filling.index < count) (hturn : filling.turn = .ok next) :
    fill count filling = fill count next := by
  rw [fill, if_pos h]
  split
  next error he => cases he.symm.trans hturn
  next other ho =>
    cases ho.symm.trans hturn
    rfl

theorem fill_of_error {error : FormatError} (h : filling.index < count) (hturn : filling.turn = .error error) :
    fill count filling = .error error := by
  rw [fill, if_pos h]
  split
  next other he => exact he.symm.trans hturn
  next other ho => cases ho.symm.trans hturn

theorem map_fill (decoder : Decoder (List Constant)) (slots more : List Constant) (index : Nat) (cursor : Cursor) :
    ((decoder cursor).map fun after : List Constant × Cursor =>
      (⟨slots ++ more ++ after.1, index + more.length + after.1.length, after.2⟩ : Filling)) =
      ((do return more ++ (← decoder)) cursor).map fun after : List Constant × Cursor =>
        ⟨slots ++ after.1, index + after.1.length, after.2⟩ := by
  rw [Decoder.run_bind]
  cases decoder cursor with
  | error error => rfl
  | ok after =>
    simp only [List.append_assoc, Nat.add_assoc, ← List.length_append]
    rfl

theorem fill_eq (slots : List Constant) {index wanted : Nat} (h : count - index = wanted) (cursor : Cursor) :
    fill count ⟨slots, index, cursor⟩ = (constants index wanted cursor).map fun after =>
      ⟨slots ++ after.1, index + after.1.length, after.2⟩ := by
  induction index, wanted using constants.induct generalizing slots cursor with
  | case1 index =>
    have hle : count ≤ index := by omega
    have hnone : (pure [] : Decoder (List Constant)) cursor = .ok ([], cursor) := rfl
    rw [fill_of_le hle, constants, hnone, Except.map, List.append_nil]
    rfl
  | case2 index wanted ihWide ihPlain =>
    have hlt : index < count := by omega
    rw [constants, Decoder.run_bind]
    cases hc : constant index cursor with
    | error error =>
      have hturn : turn ⟨slots, index, cursor⟩ = .error error := by rw [turn, hc]
      rw [fill_of_error hlt hturn]
      rfl
    | ok after =>
      obtain ⟨⟨found, wide⟩, later⟩ := after
      cases wide with
      | true =>
        have hturn : turn ⟨slots, index, cursor⟩ = .ok ⟨slots ++ [found] ++ [.unused], index + 1 + 1, later⟩ := by
          rw [turn, hc]
          rfl
        rw [fill_of_turn hlt hturn, ihWide _ (by omega), List.append_assoc]
        exact map_fill (constants (index + 2) (wanted - 1)) slots [found, .unused] index later
      | false =>
        have hturn : turn ⟨slots, index, cursor⟩ = .ok ⟨slots ++ [found], index + 1, later⟩ := by
          rw [turn, hc]
          rfl
        rw [fill_of_turn hlt hturn, ihPlain _ (by omega)]
        exact map_fill (constants (index + 1) wanted) slots [found] index later

end Filling

/-- The decoder of the table, as the loop that fills it. -/
theorem decoder_eq_fill (cursor : Cursor) : ConstantPool.decoder cursor =
    (Decoder.u16 cursor).bind fun after => ((Filling.start after.2).fill after.1).map fun filling =>
      (⟨filling.slots⟩, filling.cursor) := by
  rw [ConstantPool.decoder, Decoder.run_bind]
  congr 1
  funext after
  obtain ⟨count, cursor⟩ := after
  rw [Decoder.run_bind, Filling.start, Filling.fill_eq _ rfl]
  cases constants 1 (count - 1) cursor with
  | error error => rfl
  | ok after => rfl

namespace Filling

variable {count : Nat} {origin : Cursor} {filling next : Filling}

/-- The states of the table each time that the loop looks whether there are slots to fill. -/
inductive Passes (count : Nat) (origin : Cursor) : Filling → Prop where
  | start : Passes count origin (start origin)
  | turn {filling next : Filling} (passes : Passes count origin filling) (more : filling.index < count)
    (h : filling.turn = .ok next) : Passes count origin next

/-- The loop has read these constants and nothing else, and has counted their slots. -/
structure HasRead (origin : Cursor) (stored : List StoredConstant) (filling : Filling) : Prop where
  slots : filling.slots = .unused :: stored.flatMap StoredConstant.slots
  index : filling.index = slotCount stored + 1
  bytes : origin.rest = stored.flatMap StoredConstant.encode ++ filling.cursor.rest
  offset : filling.cursor.offset = origin.offset + (stored.flatMap StoredConstant.encode).length

theorem slotCount_concat (lead : List StoredConstant) (last : StoredConstant) :
    slotCount (lead ++ [last]) = slotCount lead + last.width := by
  simp [slotCount]

theorem length_flatMap_slots (stored : List StoredConstant) :
    (stored.flatMap StoredConstant.slots).length = slotCount stored := by
  simp [slotCount, List.length_flatMap, StoredConstant.length_slots]

theorem HasRead.start (origin : Cursor) : HasRead origin [] (start origin) :=
  ⟨rfl, rfl, rfl, rfl⟩

theorem HasRead.turn {stored : List StoredConstant} (h : HasRead origin stored filling)
    (hturn : filling.turn = .ok next) : ∃ last, HasRead origin (stored ++ [last]) next := by
  have hturns := filling.turns
  rw [hturn] at hturns
  cases hturns with
  | read last rest hrest =>
    refine ⟨last, ?_, ?_, ?_, ?_⟩
    · simp [h.slots]
    · rw [slotCount_concat, h.index]
      exact Nat.add_right_comm _ _ _
    · rw [h.bytes, hrest]
      simp
    · rw [h.offset]
      simp [Nat.add_assoc]

theorem HasRead.length_slots {stored : List StoredConstant} (h : HasRead origin stored filling) :
    filling.slots.length = filling.index := by
  rw [h.slots, h.index, List.length_cons, length_flatMap_slots]

theorem Passes.exists_hasRead (passes : Passes count origin filling) : ∃ stored, HasRead origin stored filling := by
  induction passes with
  | start => exact ⟨[], .start origin⟩
  | turn _ _ h ih =>
    obtain ⟨stored, hread⟩ := ih
    obtain ⟨last, hnext⟩ := hread.turn h
    exact ⟨_, hnext⟩

theorem Passes.index_le (passes : Passes count origin filling) : filling.index ≤ count + 1 := by
  cases passes with
  | start => exact Nat.le_add_left 1 count
  | @turn before _ _ more h =>
    have hturns := before.turns
    rw [h] at hturns
    cases hturns with
    | read last _ _ =>
      have hwidth := width_eq last
      dsimp only
      omega

/-- Where the loop fails it fails in a turn to which it comes. -/
theorem Passes.exists_turn_error (passes : Passes count origin filling) {error : FormatError}
    (h : fill count filling = .error error) :
    ∃ last, Passes count origin last ∧ last.index < count ∧ last.turn = .error error := by
  induction filling using fill.induct count with
  | case1 filling hlt other hturn =>
    rw [fill_of_error hlt hturn] at h
    cases h
    exact ⟨filling, passes, hlt, hturn⟩
  | case2 filling hlt next hturn ih =>
    rw [fill_of_turn hlt hturn] at h
    exact ih (passes.turn hlt hturn) h
  | case3 filling hle =>
    rw [fill_of_le (Nat.not_lt.1 hle)] at h
    cases h

theorem fill_of_flatMap (stored : List StoredConstant) (slots : List Constant) {index : Nat} (rest : List UInt8)
    (offset : Nat) (h : index + slotCount stored < count) :
    fill count ⟨slots, index, ⟨stored.flatMap StoredConstant.encode ++ rest, offset⟩⟩ =
      fill count ⟨slots ++ stored.flatMap StoredConstant.slots, index + slotCount stored,
        ⟨rest, offset + (stored.flatMap StoredConstant.encode).length⟩⟩ := by
  induction stored generalizing slots index offset with
  | nil => simp [slotCount_nil]
  | cons first others ih =>
    have hwidth := first.width_pos
    rw [slotCount_cons] at h
    rw [List.flatMap_cons, List.append_assoc, fill_of_turn (by dsimp only; omega) (turn_of_stored ..), ih _ _ (by omega),
      slotCount_cons]
    simp [Nat.add_assoc]

end Filling

end SerialManifest.ClassFile
