import SerialManifest.Proofs.ConstantTableLoop

namespace SerialManifest.ClassFile

/-- The cursor stands among the bytes or behind the last one. -/
structure Cursor.Within (cursor : Cursor) (bytes : List UInt8) : Prop where
  offset : cursor.offset ≤ bytes.length
  rest : cursor.rest = bytes.drop cursor.offset

namespace Cursor.Within

variable {cursor later : Cursor} {bytes : List UInt8}

theorem of_append (h : cursor.Within bytes) {lead : List UInt8} (hrest : cursor.rest = lead ++ later.rest)
    (hoffset : later.offset = cursor.offset + lead.length) : later.Within bytes := by
  have hbytes : bytes.drop cursor.offset = lead ++ later.rest := h.rest ▸ hrest
  have hlength := congrArg List.length hbytes
  rw [List.length_drop, List.length_append] at hlength
  have hle := h.offset
  refine ⟨by omega, ?_⟩
  rw [hoffset, ← List.drop_drop, hbytes, List.drop_left]

theorem take_eq (h : cursor.Within bytes) (n : Nat) : Decoder.take n cursor =
    if cursor.offset + n ≤ bytes.length then
      .ok ((bytes.drop cursor.offset).take n, ⟨bytes.drop (cursor.offset + n), cursor.offset + n⟩)
    else .error (.truncated cursor.offset) := by
  have hlength := congrArg List.length h.rest
  rw [List.length_drop] at hlength
  have hle := h.offset
  by_cases hn : cursor.offset + n ≤ bytes.length
  · have htake : ((bytes.drop cursor.offset).take n).length = n := by
      rw [List.length_take, List.length_drop]
      omega
    simp only [Decoder.take, h.rest, htake, hn, ↓reduceIte, List.drop_drop]
  · rw [Decoder.take_eq_error (by omega), if_neg hn]

end Cursor.Within

theorem Fills.slotCount_lt {slots : Nat} {constants lead rest : List StoredConstant} {constant : StoredConstant}
    (h : Fills slots constants) (he : constants = lead ++ constant :: rest) : slotCount lead < slots := by
  rcases List.eq_nil_or_concat' rest with rfl | ⟨middle, last, rfl⟩
  · exact h.started lead constant he
  · have hlast := h.started (lead ++ constant :: middle) last (by simp [he])
    simp only [slotCount, List.map_append, List.sum_append] at hlast ⊢
    omega

theorem ConstantPool.refuses {table : ConstantPool} {slot : Nat}
    (h : ∀ found, table.slots[slot]? = some found → found = .unused) :
    table.text slot = .error (.badConstant slot .utf8) ∧
      table.className slot = .error (.badConstant slot .classRef) := by
  unfold ConstantPool.text ConstantPool.className
  constructor
  · split
    next value hv => cases h _ hv
    next => rfl
  · split
    next nameIndex hv => cases h _ hv
    next => rfl

namespace StoredPool

def IsSecond (pool : StoredPool) (slot : Nat) : Prop :=
  ∃ first wide, pool.StartsAt first wide ∧ wide.width = 2 ∧ slot = first + 1

/-- What a table of the constants holds in each slot, and where it refuses to be looked up. -/
structure Tabulated (pool : StoredPool) (table : ConstantPool) : Prop where
  filled : ∀ slot < pool.declared.toNat, ∃ found, table.slots[slot]? = some found
  unused : ∀ slot, table.slots[slot]? = some .unused ↔ slot = 0 ∨ pool.IsSecond slot
  text : ∀ slot value, table.slots[slot]? = some (.text value) ↔
    ∃ bytes fits, pool.StartsAt slot (.text bytes fits) ∧ value = Text.Utf8.decodeLossy bytes
  classRef : ∀ slot nameIndex, table.slots[slot]? = some (.classRef nameIndex) ↔
    ∃ stored : UInt16, pool.StartsAt slot (.classRef stored) ∧ nameIndex = stored.toNat
  other : ∀ slot, table.slots[slot]? = some .other ↔
    ∃ tag body known, pool.StartsAt slot (.other tag body known)
  refused : ∀ slot, slot = 0 ∨ pool.IsSecond slot ∨ pool.declared.toNat ≤ slot →
    table.text slot = .error (.badConstant slot .utf8) ∧
      table.className slot = .error (.badConstant slot .classRef)

variable {pool : StoredPool} {slot : Nat}

theorem StartsAt.lt {constant : StoredConstant} (h : pool.StartsAt slot constant) : slot < pool.declared.toNat := by
  obtain ⟨lead, rest, he, rfl⟩ := h
  have hlt := pool.fills.slotCount_lt he
  omega

theorem slots_table_eq_unused_iff :
    pool.table.slots[slot]? = some .unused ↔ slot = 0 ∨ pool.IsSecond slot := by
  rw [getElem?_table_iff]
  constructor
  · rintro (⟨rfl, _⟩ | ⟨first, constant, place, hs, rfl, hc⟩)
    · exact .inl rfl
    · rcases StoredConstant.getElem?_slots_iff.1 hc with ⟨_, h⟩ | ⟨rfl, hw, _⟩
      · exact absurd h.symm constant.content_ne_unused
      · exact .inr ⟨first, constant, hs, hw, rfl⟩
  · rintro (rfl | ⟨first, wide, hs, hw, rfl⟩)
    · exact .inl ⟨rfl, rfl⟩
    · exact .inr ⟨first, wide, 1, hs, rfl, StoredConstant.getElem?_slots_iff.2 (.inr ⟨rfl, hw, rfl⟩)⟩

theorem tabulated (pool : StoredPool) : pool.Tabulated pool.table where
  filled slot hlt := by
    have hcovered := pool.fills.covered
    have hlength : pool.table.slots.length = slotCount pool.constants + 1 := by
      rw [table, List.length_cons, Filling.length_flatMap_slots]
    exact ⟨_, List.getElem?_eq_getElem (by omega)⟩
  unused slot := slots_table_eq_unused_iff
  text slot value := slots_table_eq_text_iff
  classRef slot nameIndex := slots_table_eq_classRef_iff
  other slot := by
    rw [slots_table_eq_some_iff (by nofun)]
    constructor
    · rintro ⟨constant, hs, hc⟩
      cases constant with
      | other tag body known => exact ⟨tag, body, known, hs⟩
      | _ => cases hc
    · rintro ⟨tag, body, known, hs⟩
      exact ⟨_, hs, rfl⟩
  refused slot h := by
    refine ConstantPool.refuses fun found hfound => ?_
    by_contra hne
    obtain ⟨constant, hs, _⟩ := (slots_table_eq_some_iff hne).1 hfound
    rcases h with h | h | h
    · cases hfound.symm.trans (slots_table_eq_unused_iff.2 (.inl h))
      exact hne rfl
    · cases hfound.symm.trans (slots_table_eq_unused_iff.2 (.inr h))
      exact hne rfl
    · exact absurd hs.lt (Nat.not_lt.2 h)

theorem Tabulated.eq_table {table : ConstantPool} (h : pool.Tabulated table) : table = pool.table := by
  obtain ⟨slots⟩ := table
  congr 1
  refine List.ext_getElem? fun slot => Option.ext fun found => ?_
  have ht := pool.tabulated
  cases found with
  | unused => exact (h.unused slot).trans (ht.unused slot).symm
  | text value => exact (h.text slot value).trans (ht.text slot value).symm
  | classRef nameIndex => exact (h.classRef slot nameIndex).trans (ht.classRef slot nameIndex).symm
  | other => exact (h.other slot).trans (ht.other slot).symm

end StoredPool

theorem Filling.Passes.within {bytes : List UInt8} {count : Nat} {origin : Cursor} {filling : Filling}
    (passes : Passes count origin filling) (h : origin.Within bytes) : filling.cursor.Within bytes := by
  obtain ⟨stored, hread⟩ := passes.exists_hasRead
  exact h.of_append hread.bytes hread.offset

namespace ConstantPool

variable {bytes : List UInt8} {place count : Nat} {origin : Cursor}

theorem within_of_count (hcount : Decoder.u16 ⟨bytes.drop place, place⟩ = .ok (count, origin)) :
    origin.Within bytes := by
  obtain ⟨lead, ⟨declared, rfl, _⟩, hrest, hoffset⟩ := (Decoder.u16_accepts _ _ _).1 hcount
  have hlength := congrArg List.length hrest
  simp only [List.length_drop, List.length_append, length_numeral] at hlength
  have hstart : Cursor.Within ⟨bytes.drop place, place⟩ bytes := ⟨by dsimp only; omega, rfl⟩
  exact hstart.of_append hrest hoffset

theorem decoder_of_count {cursor : Cursor} (hcount : Decoder.u16 cursor = .ok (count, origin)) :
    decoder cursor = ((Filling.start origin).fill count).map
      fun filling => (⟨filling.slots⟩, filling.cursor) := by
  rw [decoder_eq_fill, hcount]
  rfl

/-- The decoder succeeds on the constants that fill the declared slots, and tells what is in each slot. -/
theorem decoder_eq_ok_iff {cursor later : Cursor} (hcount : Decoder.u16 cursor = .ok (count, origin))
    {table : ConstantPool} : decoder cursor = .ok (table, later) ↔
      ∃ pool : StoredPool, pool.declared.toNat = count ∧ cursor.rest = pool.encode ++ later.rest ∧
        later.offset = cursor.offset + pool.encode.length ∧ pool.Tabulated table := by
  rw [pool_accepts cursor table later]
  constructor
  · rintro ⟨_, ⟨pool, rfl, rfl⟩, hrest, hoffset⟩
    refine ⟨pool, ?_, hrest, hoffset, pool.tabulated⟩
    have htakes : Decoder.u16.Takes (numeral 2 pool.declared.toNat) pool.declared.toNat :=
      Decoder.u16_accepts.takes ⟨pool.declared, rfl, rfl⟩
    obtain ⟨rest, offset⟩ := cursor
    have hrest : rest = pool.encode ++ later.rest := hrest
    rw [hrest, StoredPool.encode, List.append_assoc, htakes] at hcount
    cases hcount
    rfl
  · rintro ⟨pool, _, hrest, hoffset, htable⟩
    exact ⟨_, ⟨pool, rfl, htable.eq_table⟩, hrest, hoffset⟩

/-- A tag is reported as unknown if it stands where a constant is wanted, and under the slot of that constant. -/
theorem decoder_eq_unknownTag_iff {cursor : Cursor} (hcount : Decoder.u16 cursor = .ok (count, origin))
    {tag slot : Nat} : decoder cursor = .error (.unknownTag tag slot) ↔
      ∃ (lead : List StoredConstant) (code : UInt8) (rest : List UInt8),
        origin.rest = lead.flatMap StoredConstant.encode ++ code :: rest ∧ UnknownTag code ∧
          tag = code.toNat ∧ slot = slotCount lead + 1 ∧ slot < count := by
  rw [decoder_of_count hcount]
  constructor
  · intro h
    cases hrun : (Filling.start origin).fill count with
    | ok filling =>
      rw [hrun] at h
      cases h
    | error error =>
      rw [hrun] at h
      cases h
      -- the turn that fails is counted as the slot behind the constants that were read before it
      obtain ⟨last, hpasses, hlt, hturn⟩ := Filling.Passes.start.exists_turn_error hrun
      obtain ⟨stored, hread⟩ := hpasses.exists_hasRead
      have hturns := last.turns
      rw [hturn] at hturns
      cases hturns with
      | unknown code rest hrest hunknown =>
        exact ⟨stored, code, rest, hrest ▸ hread.bytes, hunknown, rfl, hread.index, hlt⟩
  · rintro ⟨lead, code, rest, hrest, hunknown, rfl, rfl, hlt⟩
    -- the loop reads the constants in front and then comes to the tag
    have hstart : Filling.start origin =
        ⟨[.unused], 1, ⟨lead.flatMap StoredConstant.encode ++ code :: rest, origin.offset⟩⟩ := by
      rw [← hrest]
      rfl
    rw [Nat.add_comm] at hlt
    rw [hstart, Filling.fill_of_flatMap lead _ _ _ hlt,
      Filling.fill_of_error hlt (Filling.turn_of_unknownTag hunknown ..), Nat.add_comm]
    rfl

/-- The slots are counted right from the first constant to the last. Where at most 65534 slots are declared, each
time the loop comes round the table has as many slots as are counted, the count is a number of two bytes, and the
next read begins among the bytes or behind the last. Each slot then holds what starts there, the second slots of longs and
doubles and those behind the declared ones cannot be looked up, and a tag is unknown in the slot that its constant
would start in. -/
theorem decoder_in_step (hcount : Decoder.u16 ⟨bytes.drop place, place⟩ = .ok (count, origin))
    (hmost : count ≤ 65534) :
    decoder ⟨bytes.drop place, place⟩ = ((Filling.start origin).fill count).map
      (fun filling => (⟨filling.slots⟩, filling.cursor)) ∧
    (∀ filling, Filling.Passes count origin filling →
      filling.slots.length = filling.index ∧ filling.index ≤ 65535 ∧ filling.cursor.Within bytes ∧
        filling.Turns filling.turn) ∧
    (∀ (cursor : Cursor) (n : Nat), cursor.Within bytes → Decoder.take n cursor =
      if cursor.offset + n ≤ bytes.length then
        .ok ((bytes.drop cursor.offset).take n, ⟨bytes.drop (cursor.offset + n), cursor.offset + n⟩)
      else .error (.truncated cursor.offset)) ∧
    (∀ table later, decoder ⟨bytes.drop place, place⟩ = .ok (table, later) ↔
      ∃ pool : StoredPool, pool.declared.toNat = count ∧ bytes.drop place = pool.encode ++ later.rest ∧
        later.offset = place + pool.encode.length ∧ pool.Tabulated table) ∧
    ∀ tag slot, decoder ⟨bytes.drop place, place⟩ = .error (.unknownTag tag slot) ↔
      ∃ (lead : List StoredConstant) (code : UInt8) (rest : List UInt8),
        origin.rest = lead.flatMap StoredConstant.encode ++ code :: rest ∧ UnknownTag code ∧
          tag = code.toNat ∧ slot = slotCount lead + 1 ∧ slot < count := by
  refine ⟨decoder_of_count hcount, fun filling passes => ?_, fun cursor n h => h.take_eq n,
    fun table later => decoder_eq_ok_iff hcount, fun tag slot => decoder_eq_unknownTag_iff hcount⟩
  obtain ⟨stored, hread⟩ := passes.exists_hasRead
  have hindex := passes.index_le
  exact ⟨hread.length_slots, by omega, passes.within (within_of_count hcount), filling.turns⟩

/-- A text in slot 1 and a double in slot 2, the second slot of which is behind the three that are declared. -/
def overshootingPool : StoredPool where
  declared := 3
  constants := [.text [65] (by decide), .other 6 (List.replicate 8 0) (by decide)]
  fills := fills_cons_iff.2 (fills_cons_iff.2 (fills_zero_iff.2 rfl))

/-- The table of these constants is read, and a tag that is unknown behind a long is not. -/
theorem slots_of_overshootingPool :
    (∃ table, decoder ⟨[0, 3, 1, 0, 1, 65, 6, 0, 0, 0, 0, 0, 0, 0, 0], 0⟩ = .ok (table, ⟨[], 15⟩) ∧
      table.slots[1]? = some (.text "A") ∧ table.text 3 = .error (.badConstant 3 .utf8) ∧
        table.className 3 = .error (.badConstant 3 .classRef)) ∧
      decoder ⟨[0, 9, 5, 0, 0, 0, 0, 0, 0, 0, 0, 2], 0⟩ = .error (.unknownTag 2 3) := by
  have htable := overshootingPool.tabulated
  constructor
  · have hcount : Decoder.u16 ⟨List.drop 0 [0, 3, 1, 0, 1, 65, 6, 0, 0, 0, 0, 0, 0, 0, 0], 0⟩ =
        .ok (3, ⟨[1, 0, 1, 65, 6, 0, 0, 0, 0, 0, 0, 0, 0], 2⟩) := rfl
    obtain ⟨_, _, _, hok, _⟩ := decoder_in_step hcount (by decide)
    obtain ⟨htext, hclass⟩ := htable.refused 3 (.inr (.inr (Nat.le_refl 3)))
    exact ⟨overshootingPool.table, (hok _ _).2 ⟨overshootingPool, rfl, by decide, by decide, htable⟩,
      by decide, htext, hclass⟩
  · have hcount : Decoder.u16 ⟨List.drop 0 [0, 9, 5, 0, 0, 0, 0, 0, 0, 0, 0, 2], 0⟩ =
        .ok (9, ⟨[5, 0, 0, 0, 0, 0, 0, 0, 0, 2], 2⟩) := rfl
    obtain ⟨_, _, _, _, hunknown⟩ := decoder_in_step hcount (by decide)
    exact (hunknown 2 3).2 ⟨[.other 5 (List.replicate 8 0) (by decide)], 2, [], by decide, unknownTag_iff.2 rfl,
      rfl, rfl, by decide⟩

end ConstantPool

end SerialManifest.ClassFile
