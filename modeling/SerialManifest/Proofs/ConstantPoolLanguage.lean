import SerialManifest.ClassFile.ConstantPool
import SerialManifest.Proofs.ClassFileGrammar

namespace SerialManifest.ClassFile

open Decoder (Accepts Coded encodeList)

theorem ofTag?_eq_text_iff {tag : Nat} : Layout.ofTag? tag = some .text ↔ tag = 1 := by
  unfold Layout.ofTag?
  split <;> simp_all

theorem ofTag?_eq_classRef_iff {tag : Nat} : Layout.ofTag? tag = some .classRef ↔ tag = 7 := by
  unfold Layout.ofTag?
  split <;> simp_all

theorem ofTag?_eq_plain_iff {tag size : Nat} :
    Layout.ofTag? tag = some (.plain size) ↔ (tag, size) ∈ bodyLengths ∧ ¬ (tag = 5 ∨ tag = 6) := by
  unfold Layout.ofTag?
  split <;> simp_all [bodyLengths, eq_comm]

theorem ofTag?_eq_wide_iff {tag size : Nat} :
    Layout.ofTag? tag = some (.wide size) ↔ (tag, size) ∈ bodyLengths ∧ (tag = 5 ∨ tag = 6) := by
  unfold Layout.ofTag?
  split <;> simp_all [bodyLengths, eq_comm]

namespace StoredConstant

/-- What the first slot of a constant holds. -/
def content : StoredConstant → Constant
  | text bytes _ => .text (Text.Utf8.decodeLossy bytes)
  | classRef nameIndex => .classRef nameIndex.toNat
  | other _ _ _ => .other

theorem content_ne_unused (constant : StoredConstant) : constant.content ≠ .unused := by
  cases constant <;> nofun

def slots (constant : StoredConstant) : List Constant :=
  if constant.width = 2 then [constant.content, .unused] else [constant.content]

theorem width_other {tag : UInt8} {body : List UInt8} (known : (tag.toNat, body.length) ∈ bodyLengths) :
    (other tag body known).width = if tag.toNat = 5 ∨ tag.toNat = 6 then 2 else 1 := by
  have h5 : tag = 5 ↔ tag.toNat = 5 := UInt8.toNat_inj.symm
  have h6 : tag = 6 ↔ tag.toNat = 6 := UInt8.toNat_inj.symm
  simp only [width, h5, h6]

theorem length_slots (constant : StoredConstant) : constant.slots.length = constant.width := by
  cases constant with
  | text bytes fits => rfl
  | classRef nameIndex => rfl
  | other tag body known =>
    rw [slots, width_other known]
    split <;> rfl

theorem getElem?_slots_iff {constant : StoredConstant} {place : Nat} {found : Constant} :
    constant.slots[place]? = some found ↔
      place = 0 ∧ found = constant.content ∨ place = 1 ∧ constant.width = 2 ∧ found = .unused := by
  unfold slots
  split
  next hw =>
    match place with
    | 0 => simp [eq_comm]
    | 1 => simp [hw, eq_comm]
    | place + 2 => simp
  next hw =>
    match place with
    | 0 => simp [eq_comm]
    | place + 1 => simp [hw]

end StoredConstant

/-- What follows a tag, given how its constants are laid out. -/
def Follows (layout : Option Layout) (bytes : List UInt8) (found : Constant × Bool) : Prop :=
  match layout with
  | none => False
  | some .text => ∃ text, text.length < 2 ^ 16 ∧ bytes = numeral 2 text.length ++ text ∧
      found = (.text (Text.Utf8.decodeLossy text), false)
  | some .classRef => ∃ nameIndex : UInt16, bytes = numeral 2 nameIndex.toNat ∧
      found = (.classRef nameIndex.toNat, false)
  | some (.plain size) => bytes.length = size ∧ found = (.other, false)
  | some (.wide size) => bytes.length = size ∧ found = (.other, true)

theorem skipped_accepts {α : Type} (size : Nat) (value : α) :
    Accepts (do Decoder.skip size; return value) fun bytes found =>
      bytes.length = size ∧ found = value := by
  refine ((Decoder.skip_accepts size).bind_pure fun _ => value).congr fun bytes found => ?_
  constructor
  · rintro ⟨_, hl, hf⟩
    exact ⟨hl, hf⟩
  · rintro ⟨hl, hf⟩
    exact ⟨(), hl, hf⟩

theorem text_accepts : Accepts (do
    let length ← Decoder.u16
    return (Constant.text (Text.Utf8.decodeLossy (← Decoder.take length)), false))
    (Follows (some .text)) := by
  refine ((Decoder.unsigned_accepts 2).bind fun length =>
    (Decoder.take_accepts length).bind_pure fun text =>
      (Constant.text (Text.Utf8.decodeLossy text), false)).congr fun bytes found => ?_
  constructor
  · rintro ⟨_, _, _, ⟨hl, rfl⟩, ⟨text, ⟨rfl, rfl⟩, rfl⟩, rfl⟩
    exact ⟨text, hl, rfl, rfl⟩
  · rintro ⟨text, hl, rfl, rfl⟩
    exact ⟨text.length, _, text, ⟨hl, rfl⟩, ⟨text, ⟨rfl, rfl⟩, rfl⟩, rfl⟩

theorem classRef_accepts : Accepts (do return (Constant.classRef (← Decoder.u16), false))
    (Follows (some .classRef)) := by
  refine (Decoder.u16_accepts.bind_pure fun nameIndex => (Constant.classRef nameIndex, false)).congr
    fun bytes found => ?_
  constructor
  · rintro ⟨_, ⟨nameIndex, rfl, rfl⟩, rfl⟩
    exact ⟨nameIndex, rfl, rfl⟩
  · rintro ⟨nameIndex, rfl, rfl⟩
    exact ⟨_, ⟨nameIndex, rfl, rfl⟩, rfl⟩

theorem follows_of_stored (stored : StoredConstant) : ∃ tag tail, tag < 256 ∧
    Follows (Layout.ofTag? tag) tail (stored.content, decide (stored.width = 2)) ∧
      stored.encode = numeral 1 tag ++ tail := by
  cases stored with
  | text text fits =>
    refine ⟨1, numeral 2 text.length ++ text, by decide, ?_, rfl⟩
    rw [ofTag?_eq_text_iff.2 rfl]
    exact ⟨text, fits, rfl, rfl⟩
  | classRef nameIndex =>
    refine ⟨7, numeral 2 nameIndex.toNat, by decide, ?_, rfl⟩
    rw [ofTag?_eq_classRef_iff.2 rfl]
    exact ⟨nameIndex, rfl, rfl⟩
  | other tag body known =>
    refine ⟨tag.toNat, body, tag.toNat_lt, ?_, by simp [numeral, StoredConstant.encode]⟩
    rw [StoredConstant.width_other known]
    by_cases hw : tag.toNat = 5 ∨ tag.toNat = 6
    · rw [ofTag?_eq_wide_iff.2 ⟨known, hw⟩, if_pos hw]
      exact ⟨rfl, rfl⟩
    · rw [ofTag?_eq_plain_iff.2 ⟨known, hw⟩, if_neg hw]
      exact ⟨rfl, rfl⟩

theorem exists_other {tag : Nat} {tail : List UInt8} (htag : tag < 256)
    (known : (tag, tail.length) ∈ bodyLengths) : ∃ stored : StoredConstant,
      numeral 1 tag ++ tail = stored.encode ∧ stored.content = .other ∧
        stored.width = if tag = 5 ∨ tag = 6 then 2 else 1 := by
  have hbyte : (UInt8.ofNat tag).toNat = tag := UInt8.toNat_ofNat_of_lt' htag
  have known' : ((UInt8.ofNat tag).toNat, tail.length) ∈ bodyLengths := by rwa [hbyte]
  refine ⟨.other (UInt8.ofNat tag) tail known', by simp [numeral, StoredConstant.encode], rfl, ?_⟩
  rw [StoredConstant.width_other known', hbyte]

theorem exists_stored_of_follows {tag : Nat} {tail : List UInt8} {found : Constant × Bool}
    (htag : tag < 256) (hf : Follows (Layout.ofTag? tag) tail found) : ∃ stored : StoredConstant,
      numeral 1 tag ++ tail = stored.encode ∧ found = (stored.content, decide (stored.width = 2)) := by
  cases hl : Layout.ofTag? tag with
  | none =>
    rw [hl] at hf
    exact hf.elim
  | some layout =>
    rw [hl] at hf
    cases layout with
    | text =>
      obtain ⟨text, fits, rfl, rfl⟩ := hf
      cases ofTag?_eq_text_iff.1 hl
      exact ⟨.text text fits, rfl, rfl⟩
    | classRef =>
      obtain ⟨nameIndex, rfl, rfl⟩ := hf
      cases ofTag?_eq_classRef_iff.1 hl
      exact ⟨.classRef nameIndex, rfl, rfl⟩
    | plain size =>
      obtain ⟨rfl, rfl⟩ := hf
      obtain ⟨known, hw⟩ := ofTag?_eq_plain_iff.1 hl
      obtain ⟨stored, he, hc, hwidth⟩ := exists_other htag known
      exact ⟨stored, he, by rw [hc, hwidth, if_neg hw]; rfl⟩
    | wide size =>
      obtain ⟨rfl, rfl⟩ := hf
      obtain ⟨known, hw⟩ := ofTag?_eq_wide_iff.1 hl
      obtain ⟨stored, he, hc, hwidth⟩ := exists_other htag known
      exact ⟨stored, he, by rw [hc, hwidth, if_pos hw]; rfl⟩

theorem constant_accepts (index : Nat) : (constant index).Accepts (Coded StoredConstant.encode
    fun stored found => found = (stored.content, decide (stored.width = 2))) := by
  have hbranch : ∀ tag, Accepts (match Layout.ofTag? tag with
      | none => throw (.unknownTag tag index)
      | some .text => do
        let length ← Decoder.u16
        return (.text (Text.Utf8.decodeLossy (← Decoder.take length)), false)
      | some .classRef => do return (.classRef (← Decoder.u16), false)
      | some (.plain size) => do
        Decoder.skip size
        return (.other, false)
      | some (.wide size) => do
        Decoder.skip size
        return (.other, true)) (Follows (Layout.ofTag? tag)) := by
    intro tag
    cases Layout.ofTag? tag with
    | none => exact .throw _
    | some layout =>
      cases layout with
      | text => exact text_accepts
      | classRef => exact classRef_accepts
      | plain size => exact skipped_accepts size _
      | wide size => exact skipped_accepts size _
  refine ((Decoder.unsigned_accepts 1).bind hbranch).congr fun bytes found => ?_
  constructor
  · rintro ⟨tag, _, tail, ⟨htag, rfl⟩, hf, rfl⟩
    exact exists_stored_of_follows htag hf
  · rintro ⟨stored, rfl, rfl⟩
    obtain ⟨tag, tail, htag, hf, he⟩ := follows_of_stored stored
    exact ⟨tag, _, tail, ⟨htag, rfl⟩, hf, he⟩

theorem width_eq (constant : StoredConstant) : constant.width = 1 ∨ constant.width = 2 := by
  cases constant with
  | text bytes fits => exact .inl rfl
  | classRef nameIndex => exact .inl rfl
  | other tag body known =>
    rw [StoredConstant.width_other known]
    split
    · exact .inr rfl
    · exact .inl rfl

theorem rest_accepts {index wanted : Nat} (h : ∀ smaller < wanted + 1, ∀ index,
      (constants index smaller).Accepts (Coded (List.flatMap StoredConstant.encode) fun stored slots =>
        Fills smaller stored ∧ slots = stored.flatMap StoredConstant.slots)) (first : StoredConstant) :
    Accepts (do
      if decide (first.width = 2) then
        return first.content :: .unused :: (← constants (index + 2) (wanted - 1))
      else return first.content :: (← constants (index + 1) wanted))
      (Coded (List.flatMap StoredConstant.encode) fun stored slots =>
        Fills (wanted + 1 - first.width) stored ∧
          slots = first.slots ++ stored.flatMap StoredConstant.slots) := by
  rcases width_eq first with hw | hw
  · simp only [hw, StoredConstant.slots]
    refine ((h wanted (by omega) (index + 1)).bind_pure (first.content :: ·)).congr fun bytes slots => ?_
    constructor
    · rintro ⟨_, ⟨stored, rfl, hf, rfl⟩, rfl⟩
      exact ⟨stored, rfl, hf, rfl⟩
    · rintro ⟨stored, rfl, hf, rfl⟩
      exact ⟨_, ⟨stored, rfl, hf, rfl⟩, rfl⟩
  · simp only [hw, StoredConstant.slots]
    refine ((h (wanted - 1) (by omega) (index + 2)).bind_pure (first.content :: .unused :: ·)).congr
      fun bytes slots => ?_
    constructor
    · rintro ⟨_, ⟨stored, rfl, hf, rfl⟩, rfl⟩
      exact ⟨stored, rfl, hf, rfl⟩
    · rintro ⟨stored, rfl, hf, rfl⟩
      exact ⟨_, ⟨stored, rfl, hf, rfl⟩, rfl⟩

theorem constants_accepts (index wanted : Nat) : (constants index wanted).Accepts
    (Coded (List.flatMap StoredConstant.encode) fun stored slots =>
      Fills wanted stored ∧ slots = stored.flatMap StoredConstant.slots) := by
  -- a wide constant takes two slots, so the slots that are left can be two fewer
  induction wanted using Nat.strongRecOn generalizing index with
  | ind wanted ih =>
    cases wanted with
    | zero =>
      rw [constants]
      refine (Accepts.pure []).congr fun bytes slots => ?_
      constructor
      · rintro ⟨rfl, rfl⟩
        exact ⟨[], rfl, fills_zero_iff.2 rfl, rfl⟩
      · rintro ⟨stored, rfl, hf, rfl⟩
        cases fills_zero_iff.1 hf
        exact ⟨rfl, rfl⟩
    | succ wanted =>
      rw [constants]
      refine ((constant_accepts index).bind_coded (rest_accepts ih)).congr fun bytes slots => ?_
      constructor
      · rintro ⟨first, _, ⟨rest, rfl, hf, rfl⟩, rfl⟩
        exact ⟨first :: rest, rfl, fills_cons_iff.2 hf, rfl⟩
      · rintro ⟨stored, rfl, hf, rfl⟩
        cases stored with
        | nil => exact absurd hf (not_fills_nil wanted)
        | cons first rest => exact ⟨first, _, ⟨rest, rfl, fills_cons_iff.1 hf, rfl⟩, rfl⟩

def StoredPool.table (pool : StoredPool) : ConstantPool :=
  ⟨.unused :: pool.constants.flatMap StoredConstant.slots⟩

theorem pool_accepts :
    ConstantPool.decoder.Accepts (Coded StoredPool.encode fun stored pool => pool = stored.table) := by
  refine (Decoder.u16_accepts.bind_coded fun declared =>
    (constants_accepts 1 (declared.toNat - 1)).bind_pure fun slots =>
      ConstantPool.mk (.unused :: slots)).congr fun bytes pool => ?_
  constructor
  · rintro ⟨declared, _, ⟨_, ⟨stored, rfl, hf, rfl⟩, rfl⟩, rfl⟩
    exact ⟨⟨declared, stored, hf⟩, rfl, rfl⟩
  · rintro ⟨⟨declared, stored, hf⟩, rfl, rfl⟩
    exact ⟨declared, _, ⟨_, ⟨stored, rfl, hf, rfl⟩, rfl⟩, rfl⟩

theorem getElem?_flatMap_slots_iff {constants : List StoredConstant} {slot : Nat} {found : Constant} :
    (constants.flatMap StoredConstant.slots)[slot]? = some found ↔
      ∃ lead constant rest place, constants = lead ++ constant :: rest ∧ slot = slotCount lead + place ∧
        constant.slots[place]? = some found := by
  induction constants generalizing slot with
  | nil => simp
  | cons first others ih =>
    rw [List.flatMap_cons]
    constructor
    · intro h
      by_cases hlt : slot < first.slots.length
      · rw [List.getElem?_append_left hlt] at h
        exact ⟨[], first, others, slot, rfl, (Nat.zero_add slot).symm, h⟩
      · rw [List.getElem?_append_right (Nat.not_lt.1 hlt)] at h
        obtain ⟨lead, constant, rest, place, rfl, hs, hc⟩ := ih.1 h
        refine ⟨first :: lead, constant, rest, place, rfl, ?_, hc⟩
        rw [slotCount_cons, ← first.length_slots]
        omega
    · rintro ⟨lead, constant, rest, place, he, rfl, hc⟩
      cases lead with
      | nil =>
        obtain ⟨rfl, rfl⟩ := List.cons.inj he
        rw [slotCount_nil, Nat.zero_add, List.getElem?_append_left (List.getElem?_eq_some_iff.1 hc).1]
        exact hc
      | cons other lead =>
        obtain ⟨rfl, rfl⟩ := List.cons.inj he
        rw [slotCount_cons, ← first.length_slots, Nat.add_assoc, List.getElem?_append_right (Nat.le_add_right _ _),
          Nat.add_sub_cancel_left]
        exact ih.2 ⟨lead, constant, rest, place, rfl, rfl, hc⟩

namespace StoredPool

variable {pool : StoredPool}

/-- Behind slot 0 the table holds what the constants hold. -/
theorem getElem?_table_iff {slot : Nat} {found : Constant} : pool.table.slots[slot]? = some found ↔
    slot = 0 ∧ found = .unused ∨ ∃ first constant place, pool.StartsAt first constant ∧ slot = first + place ∧
      constant.slots[place]? = some found := by
  cases slot with
  | zero =>
    constructor
    · exact fun h => .inl ⟨rfl, (Option.some.inj h).symm⟩
    · rintro (⟨_, rfl⟩ | ⟨_, _, _, ⟨_, _, _, rfl⟩, hs, _⟩)
      · rfl
      · omega
  | succ slot =>
    have ht : pool.table.slots[slot + 1]? = (pool.constants.flatMap StoredConstant.slots)[slot]? := rfl
    rw [ht, getElem?_flatMap_slots_iff]
    constructor
    · rintro ⟨lead, constant, rest, place, he, rfl, hc⟩
      exact .inr ⟨_, constant, place, ⟨lead, rest, he, rfl⟩, Nat.add_right_comm _ _ _, hc⟩
    · rintro (⟨h, _⟩ | ⟨_, constant, place, ⟨lead, rest, he, rfl⟩, hs, hc⟩)
      · cases h
      · exact ⟨lead, constant, rest, place, he, by omega, hc⟩

theorem slots_table_eq_some_iff {slot : Nat} {found : Constant} (hne : found ≠ .unused) :
    pool.table.slots[slot]? = some found ↔
      ∃ constant, pool.StartsAt slot constant ∧ constant.content = found := by
  rw [getElem?_table_iff]
  constructor
  · rintro (⟨_, h⟩ | ⟨first, constant, place, hs, rfl, hc⟩)
    · exact absurd h hne
    · rcases StoredConstant.getElem?_slots_iff.1 hc with ⟨rfl, rfl⟩ | ⟨_, _, h⟩
      · exact ⟨constant, hs, rfl⟩
      · exact absurd h hne
  · rintro ⟨constant, hs, rfl⟩
    exact .inr ⟨slot, constant, 0, hs, rfl, StoredConstant.getElem?_slots_iff.2 (.inl ⟨rfl, rfl⟩)⟩

theorem slots_table_eq_text_iff {slot : Nat} {value : String} :
    pool.table.slots[slot]? = some (.text value) ↔
      ∃ bytes fits, pool.StartsAt slot (.text bytes fits) ∧ value = Text.Utf8.decodeLossy bytes := by
  rw [slots_table_eq_some_iff (by nofun)]
  constructor
  · rintro ⟨constant, hs, hc⟩
    cases constant with
    | text bytes fits =>
      cases hc
      exact ⟨bytes, fits, hs, rfl⟩
    | _ => cases hc
  · rintro ⟨bytes, fits, hs, rfl⟩
    exact ⟨_, hs, rfl⟩

theorem slots_table_eq_classRef_iff {slot nameIndex : Nat} :
    pool.table.slots[slot]? = some (.classRef nameIndex) ↔
      ∃ stored : UInt16, pool.StartsAt slot (.classRef stored) ∧ nameIndex = stored.toNat := by
  rw [slots_table_eq_some_iff (by nofun)]
  constructor
  · rintro ⟨constant, hs, hc⟩
    cases constant with
    | classRef stored =>
      cases hc
      exact ⟨stored, hs, rfl⟩
    | _ => cases hc
  · rintro ⟨stored, hs, rfl⟩
    exact ⟨_, hs, rfl⟩

theorem text_eq_ok_iff {slot : UInt16} {text : String} :
    pool.table.text slot.toNat = .ok text ↔ pool.TextAt slot text := by
  have hslot : pool.table.slots[slot.toNat]? = some (.text text) ↔ pool.TextAt slot text :=
    slots_table_eq_text_iff
  rw [← hslot, ConstantPool.text]
  split
  next value hv => simp [hv]
  next hn =>
    constructor
    · intro h
      cases h
    · intro h
      exact absurd h (hn text)

theorem classRef_iff {slot nameIndex : UInt16} :
    pool.table.slots[slot.toNat]? = some (.classRef nameIndex.toNat) ↔
      pool.StartsAt slot.toNat (.classRef nameIndex) := by
  rw [slots_table_eq_classRef_iff]
  constructor
  · rintro ⟨other, hs, he⟩
    cases UInt16.toNat_inj.1 he
    exact hs
  · exact fun hs => ⟨nameIndex, hs, rfl⟩

/-- Every reference to a class has the form of a stored one. -/
theorem exists_of_classRef {slot nameIndex : Nat}
    (h : pool.table.slots[slot]? = some (.classRef nameIndex)) :
    ∃ stored : UInt16, nameIndex = stored.toNat := by
  obtain ⟨stored, _, he⟩ := slots_table_eq_classRef_iff.1 h
  exact ⟨stored, he⟩

theorem className_eq_ok_iff {slot : UInt16} {name : String} :
    pool.table.className slot.toNat = .ok name ↔ pool.ClassAt slot name := by
  unfold ConstantPool.className ClassAt
  split
  next nameIndex hs =>
    obtain ⟨stored, rfl⟩ := exists_of_classRef hs
    change (pool.table.text stored.toNat).bind _ = .ok name ↔ _
    constructor
    · intro h
      cases ht : pool.table.text stored.toNat with
      | error error =>
        rw [ht] at h
        cases h
      | ok text =>
        rw [ht] at h
        cases h
        exact ⟨stored, text, classRef_iff.1 hs, text_eq_ok_iff.1 ht, rfl⟩
    · rintro ⟨other, text, hc, ht, rfl⟩
      cases UInt16.toNat_inj.1 (Constant.classRef.inj (Option.some.inj (hs.symm.trans (classRef_iff.2 hc))))
      rw [text_eq_ok_iff.2 ht]
      rfl
  next hn =>
    constructor
    · intro h
      cases h
    · rintro ⟨other, _, hc, _⟩
      exact absurd (classRef_iff.2 hc) (hn other.toNat)

theorem TextAt.unique {slot : UInt16} {first second : String} (hf : pool.TextAt slot first)
    (hs : pool.TextAt slot second) : first = second :=
  Except.ok.inj ((text_eq_ok_iff.2 hf).symm.trans (text_eq_ok_iff.2 hs))

theorem ClassAt.unique {slot : UInt16} {first second : String} (hf : pool.ClassAt slot first)
    (hs : pool.ClassAt slot second) : first = second :=
  Except.ok.inj ((className_eq_ok_iff.2 hf).symm.trans (className_eq_ok_iff.2 hs))

end StoredPool

end SerialManifest.ClassFile
