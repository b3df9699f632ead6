import SerialManifest.ClassFile.Parser
import SerialManifest.Proofs.ConstantPoolLanguage

namespace SerialManifest.ClassFile

open Decoder (Accepts Coded encodeList)

variable {α β : Type}

theorem numeral_of_length {bytes : List UInt8} (h : bytes.length = 2) :
    ∃ stored : UInt16, bytes = numeral 2 stored.toNat := by
  have hlt : bigEndian bytes < 256 ^ 2 := by
    rw [← h]
    exact bigEndian_lt bytes
  refine ⟨UInt16.ofNat (bigEndian bytes), ?_⟩
  rw [UInt16.toNat_ofNat_of_lt' hlt, ← h, numeral_bigEndian]

theorem skipShort_accepts :
    (Decoder.skip 2).Accepts (Coded (fun stored : UInt16 => numeral 2 stored.toNat) fun _ _ => True) := by
  refine (Decoder.skip_accepts 2).congr fun bytes _ => ?_
  constructor
  · intro hl
    obtain ⟨stored, he⟩ := numeral_of_length hl
    exact ⟨stored, he, trivial⟩
  · rintro ⟨stored, rfl, _⟩
    exact length_numeral 2 _

theorem accessFlags_accepts : accessFlags.Accepts
    (Coded (fun stored : UInt16 => numeral 2 stored.toNat) fun stored flags => flags = ⟨stored⟩) := by
  refine Decoder.u16_accepts.bind_coded_nil fun stored => ?_
  refine (Accepts.pure (AccessFlags.mk (UInt16.ofNat stored.toNat))).congr fun bytes flags => ?_
  rw [UInt16.ofNat_toNat]

section LookUp

variable {lookUp : Nat → Except FormatError α} {At : UInt16 → α → Prop}

theorem lookUp_accepts (hl : ∀ (slot : UInt16) value, lookUp slot.toNat = .ok value ↔ At slot value) :
    Accepts (do lookUp (← Decoder.u16)) (Coded (fun slot : UInt16 => numeral 2 slot.toNat) At) := by
  refine Decoder.u16_accepts.bind_coded_nil fun slot => (Accepts.lift _).congr fun bytes value => ?_
  rw [hl]

theorem lookUp_bind {next : α → Decoder β} {rest : α → List UInt8 → β → Prop}
    (hl : ∀ (slot : UInt16) value, lookUp slot.toNat = .ok value ↔ At slot value)
    (hn : ∀ value, (next value).Accepts (rest value)) :
    Accepts (do
      let value ← lookUp (← Decoder.u16)
      next value) fun bytes result => ∃ slot value tail, At slot value ∧ rest value tail result ∧
        bytes = numeral 2 slot.toNat ++ tail := by
  refine (Decoder.u16_accepts.bind_coded fun _ => (Accepts.lift _).bind hn).congr fun bytes result => ?_
  constructor
  · rintro ⟨slot, _, ⟨value, _, _, ⟨rfl, hv⟩, hr, rfl⟩, rfl⟩
    exact ⟨slot, value, _, (hl slot value).1 hv, hr, rfl⟩
  · rintro ⟨slot, value, tail, hv, hr, rfl⟩
    exact ⟨slot, _, ⟨value, [], tail, ⟨rfl, (hl slot value).2 hv⟩, hr, rfl⟩, rfl⟩

theorem optional_accepts (hl : ∀ (slot : UInt16) value, lookUp slot.toNat = .ok value ↔ At slot value)
    (slot : UInt16) (wrap : Option α → β) :
    Accepts (do
      if slot.toNat = 0 then return wrap none
      else return wrap (some (← lookUp slot.toNat))) fun bytes result => bytes = [] ∧
        ∃ found, OptionalAt At slot found ∧ result = wrap found := by
  have hzero : slot = 0 ↔ slot.toNat = 0 := UInt16.toNat_inj.symm
  by_cases hz : slot.toNat = 0
  · rw [if_pos hz]
    refine (Accepts.pure _).congr fun bytes result => and_congr_right fun _ => ?_
    constructor
    · exact fun hr => ⟨none, hzero.2 hz, hr⟩
    · rintro ⟨found, hf, rfl⟩
      cases found with
      | none => rfl
      | some value => exact absurd (hzero.2 hz) hf.1
  · rw [if_neg hz]
    refine ((Accepts.lift _).bind_pure fun value => wrap (some value)).congr fun bytes result => ?_
    constructor
    · rintro ⟨value, ⟨rfl, hv⟩, rfl⟩
      exact ⟨rfl, some value, ⟨mt hzero.1 hz, (hl slot value).1 hv⟩, rfl⟩
    · rintro ⟨rfl, found, hf, rfl⟩
      cases found with
      | none => exact absurd (hzero.1 hf) hz
      | some value => exact ⟨value, ⟨rfl, (hl slot value).2 hf.2⟩, rfl⟩

end LookUp

theorem skipAttribute_accepts : skipAttribute.Accepts (Coded StoredAttribute.encode fun _ _ => True) := by
  refine (skipShort_accepts.bind fun _ => (Decoder.unsigned_accepts 4).bind fun length =>
    Decoder.skip_accepts length).congr fun bytes _ => ?_
  constructor
  · rintro ⟨_, _, _, ⟨name, rfl, _⟩, ⟨_, _, body, ⟨fits, rfl⟩, rfl, rfl⟩, rfl⟩
    exact ⟨⟨name, body, fits⟩, by simp [StoredAttribute.encode], trivial⟩
  · rintro ⟨⟨name, body, fits⟩, rfl, _⟩
    exact ⟨(), _, _, ⟨name, rfl, trivial⟩, ⟨_, _, body, ⟨fits, rfl⟩, rfl, rfl⟩, by
      simp [StoredAttribute.encode]⟩

theorem skipAttributes_accepts : skipAttributes.Accepts
    (Coded (encodeList StoredAttribute.encode) fun stored _ => stored.length < 2 ^ 16) := by
  refine ((Decoder.counted_accepts skipAttribute_accepts).bind_pure fun _ => ()).congr fun bytes _ => ?_
  constructor
  · rintro ⟨_, ⟨stored, rfl, fits, _⟩, _⟩
    exact ⟨stored, rfl, fits⟩
  · rintro ⟨stored, rfl, fits⟩
    have htold : List.Forall₂ (fun (_ : StoredAttribute) (_ : Unit) => True) stored
        (stored.map fun _ => ()) :=
      List.forall₂_map_right_iff.2 (List.forall₂_same.2 fun _ _ => trivial)
    exact ⟨_, ⟨stored, rfl, fits, htold⟩, rfl⟩

theorem field_accepts (pool : StoredPool) :
    (fieldDecoder pool.table).Accepts (Coded StoredMember.encode pool.DescribesField) := by
  refine (accessFlags_accepts.bind fun access => lookUp_bind (fun _ _ => pool.text_eq_ok_iff) fun name =>
    lookUp_bind (fun _ _ => pool.text_eq_ok_iff) fun descriptor =>
      skipAttributes_accepts.bind_pure fun _ => Field.mk name descriptor access).congr fun bytes field => ?_
  constructor
  · rintro ⟨_, _, _, ⟨access, rfl, rfl⟩, ⟨slot, name, _, hname, ⟨slot', descriptor, _, hdescriptor,
      ⟨_, ⟨attributes, rfl, fits⟩, rfl⟩, rfl⟩, rfl⟩, rfl⟩
    exact ⟨⟨access, slot, slot', attributes, fits⟩, by simp [StoredMember.encode],
      ⟨rfl, hname, hdescriptor⟩⟩
  · rintro ⟨⟨access, slot, slot', attributes, fits⟩, rfl, ⟨haccess, hname, hdescriptor⟩⟩
    obtain ⟨name, descriptor, flags⟩ := field
    cases haccess
    exact ⟨_, _, _, ⟨access, rfl, rfl⟩, ⟨slot, name, _, hname, ⟨slot', descriptor, _, hdescriptor,
      ⟨(), ⟨attributes, rfl, fits⟩, rfl⟩, rfl⟩, rfl⟩, by simp [StoredMember.encode]⟩

theorem method_accepts : skipMethod.Accepts (Coded StoredMember.encode fun _ _ => True) := by
  refine ((Decoder.skip_accepts 6).bind fun _ => skipAttributes_accepts).congr fun bytes _ => ?_
  constructor
  · rintro ⟨_, lead, _, hl, ⟨attributes, rfl, fits⟩, rfl⟩
    have hcut : lead = lead.take 2 ++ (lead.drop 2).take 2 ++ (lead.drop 2).drop 2 := by
      rw [List.append_assoc, List.take_append_drop, List.take_append_drop]
    obtain ⟨access, ha⟩ : ∃ access : UInt16, lead.take 2 = numeral 2 access.toNat :=
      numeral_of_length (by simp [hl])
    obtain ⟨name, hn⟩ : ∃ name : UInt16, (lead.drop 2).take 2 = numeral 2 name.toNat :=
      numeral_of_length (by simp [hl])
    obtain ⟨descriptor, hd⟩ : ∃ descriptor : UInt16, (lead.drop 2).drop 2 = numeral 2 descriptor.toNat :=
      numeral_of_length (by simp [hl])
    rw [ha, hn, hd] at hcut
    exact ⟨⟨access, name, descriptor, attributes, fits⟩, by rw [hcut]; rfl, trivial⟩
  · rintro ⟨⟨access, name, descriptor, attributes, fits⟩, rfl, _⟩
    exact ⟨(), _, _, by simp, ⟨attributes, rfl, fits⟩, rfl⟩

theorem superclass_accepts (pool : StoredPool) : (superclass pool.table).Accepts
    (Coded (fun slot : UInt16 => numeral 2 slot.toNat) (OptionalAt pool.ClassAt)) := by
  refine Decoder.u16_accepts.bind_coded_nil fun slot => ?_
  refine (optional_accepts (fun _ _ => pool.className_eq_ok_iff) slot fun found => found).congr
    fun bytes name => and_congr_right fun _ => ?_
  simp

/-- What a line about nested classes tells of the class of a name. -/
def StoredPool.Tells (pool : StoredPool) (name : String) (line : StoredNesting) (entry : Option Nesting) :
    Prop :=
  ∃ inner, pool.ClassAt line.inner inner ∧
    if inner = name then
      ∃ simpleName, OptionalAt pool.TextAt line.simpleName simpleName ∧ entry = some ⟨simpleName⟩
    else entry = none

theorem nestingEntry_accepts (pool : StoredPool) (name : String) :
    (nestingEntry pool.table name).Accepts (Coded StoredNesting.encode (pool.Tells name)) := by
  have hlast : ∀ inner simple : UInt16, Accepts (do
      if (← pool.table.className inner.toNat) = name then
        if simple.toNat = 0 then return some (Nesting.mk none)
        else return some (Nesting.mk (some (← pool.table.text simple.toNat)))
      else return none) fun bytes entry => bytes = [] ∧ pool.Tells name ⟨inner, 0, simple, 0⟩ entry := by
    intro inner simple
    have hbranch : ∀ found, Accepts (do
        if found = name then
          if simple.toNat = 0 then return some (Nesting.mk none)
          else return some (Nesting.mk (some (← pool.table.text simple.toNat)))
        else return none) fun bytes entry => bytes = [] ∧
          if found = name then
            ∃ simpleName, OptionalAt pool.TextAt simple simpleName ∧ entry = some ⟨simpleName⟩
          else entry = none := by
      intro found
      by_cases hf : found = name
      · simp only [if_pos hf]
        exact optional_accepts (fun _ _ => pool.text_eq_ok_iff) simple fun found => some (Nesting.mk found)
      · simp only [if_neg hf]
        exact .pure none
    refine ((Accepts.lift _).bind hbranch).congr fun bytes entry => ?_
    constructor
    · rintro ⟨found, _, _, ⟨rfl, hf⟩, ⟨rfl, ht⟩, rfl⟩
      exact ⟨rfl, found, pool.className_eq_ok_iff.1 hf, ht⟩
    · rintro ⟨rfl, found, hf, ht⟩
      exact ⟨found, [], [], ⟨rfl, pool.className_eq_ok_iff.2 hf⟩, ⟨rfl, ht⟩, rfl⟩
  refine (Decoder.u16_accepts.bind_coded fun inner => skipShort_accepts.bind fun _ =>
    Decoder.u16_accepts.bind_coded fun simple =>
    skipShort_accepts.bind fun _ => hlast inner simple).congr fun bytes entry => ?_
  constructor
  · rintro ⟨inner, _, ⟨_, _, _, ⟨outer, rfl, _⟩, ⟨simple, _, ⟨_, _, _, ⟨access, rfl, _⟩, ⟨rfl, ht⟩, rfl⟩,
      rfl⟩, rfl⟩, rfl⟩
    exact ⟨⟨inner, outer, simple, access⟩, by simp [StoredNesting.encode], ht⟩
  · rintro ⟨⟨inner, outer, simple, access⟩, rfl, ht⟩
    exact ⟨inner, _, ⟨(), _, _, ⟨outer, rfl, trivial⟩, ⟨simple, _, ⟨(), _, [], ⟨access, rfl, trivial⟩,
      ⟨rfl, ht⟩, rfl⟩, rfl⟩, rfl⟩, by simp [StoredNesting.encode]⟩

theorem exists_forall₂ {R : α → β → Prop} {items : List α} (h : ∀ item ∈ items, ∃ value, R item value) :
    ∃ values, List.Forall₂ R items values := by
  induction items with
  | nil => exact ⟨[], .nil⟩
  | cons item items ih =>
    obtain ⟨value, hv⟩ := h item List.mem_cons_self
    obtain ⟨values, hvs⟩ := ih fun other ho => h other (List.mem_cons_of_mem item ho)
    exact ⟨value :: values, .cons hv hvs⟩

theorem exists_of_forall₂ {R : α → β → Prop} {items : List α} {values : List β} {item : α}
    (h : List.Forall₂ R items values) (hm : item ∈ items) : ∃ value ∈ values, R item value := by
  induction h with
  | nil => exact absurd hm List.not_mem_nil
  | @cons first value items values hv _ ih =>
    rcases List.mem_cons.1 hm with rfl | hm
    · exact ⟨value, List.mem_cons_self, hv⟩
    · obtain ⟨other, ho, hr⟩ := ih hm
      exact ⟨other, List.mem_cons_of_mem value ho, hr⟩

namespace StoredPool

variable {pool : StoredPool} {name : String}

structure Says (pool : StoredPool) (name : String) (stored : StoredClassAttribute)
    (nestings : List Nesting) : Prop where
  wellNamed : pool.WellNamed stored
  told : ∃ entries, List.Forall₂ (pool.Tells name) stored.lines entries ∧ nestings = entries.filterMap id

theorem wellNested_iff {line : StoredNesting} :
    pool.WellNested name line ↔ ∃ entry, pool.Tells name line entry := by
  constructor
  · rintro ⟨inner, hc, hs⟩
    by_cases he : inner = name
    · obtain ⟨simpleName, ht⟩ := hs he
      exact ⟨some ⟨simpleName⟩, inner, hc, by rw [if_pos he]; exact ⟨simpleName, ht, rfl⟩⟩
    · exact ⟨none, inner, hc, by rw [if_neg he]⟩
  · rintro ⟨entry, inner, hc, ht⟩
    refine ⟨inner, hc, fun he => ?_⟩
    rw [if_pos he] at ht
    obtain ⟨simpleName, hs, _⟩ := ht
    exact ⟨simpleName, hs⟩

theorem tells_none_iff {line : StoredNesting} (h : pool.Tells name line none) :
    ¬ pool.ClassAt line.inner name := by
  intro hc
  obtain ⟨inner, hi, ht⟩ := h
  cases hi.unique hc
  rw [if_pos rfl] at ht
  obtain ⟨_, _, he⟩ := ht
  cases he

theorem tells_some {line : StoredNesting} {nesting : Nesting} (h : pool.Tells name line (some nesting)) :
    pool.ClassAt line.inner name ∧ OptionalAt pool.TextAt line.simpleName nesting.simpleName := by
  obtain ⟨inner, hi, ht⟩ := h
  split at ht
  next he =>
    obtain ⟨simpleName, hs, hn⟩ := ht
    cases hn
    exact ⟨he ▸ hi, hs⟩
  next => cases ht

theorem describesNesting_of_told {lines : List StoredNesting} {entries : List (Option Nesting)}
    (h : List.Forall₂ (pool.Tells name) lines entries) :
    pool.DescribesNesting name lines (entries.filterMap id).getLast? := by
  induction h with
  | nil => exact fun line hm => absurd hm List.not_mem_nil
  | @cons line entry lines entries ht _ ih =>
    -- a later line about the class stays the last one, else the first line may be it
    cases hl : (entries.filterMap id).getLast? with
    | some nesting =>
      rw [hl] at ih
      obtain ⟨lead, last, rest, rfl, hc, hs, hrest⟩ := ih
      have hlast : ((entry :: entries).filterMap id).getLast? = some nesting := by
        cases entry with
        | none => exact hl
        | some first =>
          rw [List.filterMap_cons_some (by rfl), List.getLast?_cons, hl]
          rfl
      rw [hlast]
      exact ⟨line :: lead, last, rest, rfl, hc, hs, hrest⟩
    | none =>
      rw [hl] at ih
      have hnil : entries.filterMap id = [] := List.getLast?_eq_none_iff.1 hl
      cases entry with
      | none =>
        have hnone : ((none :: entries).filterMap id).getLast? = none := hl
        rw [hnone]
        exact List.forall_mem_cons.2 ⟨tells_none_iff ht, ih⟩
      | some first =>
        have hfirst : ((some first :: entries).filterMap id).getLast? = some first := by
          rw [List.filterMap_cons_some (by rfl), hnil]
          rfl
        rw [hfirst]
        obtain ⟨hc, hs⟩ := tells_some ht
        exact ⟨[], line, lines, rfl, hc, hs, ih⟩

theorem lastLine_unique {lead rest lead' rest' : List StoredNesting} {line line' : StoredNesting}
    (he : lead ++ line :: rest = lead' ++ line' :: rest')
    (hc : pool.ClassAt line.inner name) (hc' : pool.ClassAt line'.inner name)
    (hr : ∀ later ∈ rest, ¬ pool.ClassAt later.inner name)
    (hr' : ∀ later ∈ rest', ¬ pool.ClassAt later.inner name) : line = line' := by
  rcases List.append_eq_append_iff.1 he with ⟨between, _, hb⟩ | ⟨between, _, hb⟩
  · cases between with
    | nil => exact (List.cons.inj hb).1
    | cons other between =>
      obtain ⟨_, rfl⟩ := List.cons.inj hb
      exact absurd hc' (hr line' (by simp))
  · cases between with
    | nil => exact (List.cons.inj hb).1.symm
    | cons other between =>
      obtain ⟨_, rfl⟩ := List.cons.inj hb
      exact absurd hc (hr' line (by simp))

theorem optionalText_unique {slot : UInt16} {first second : Option String}
    (hf : OptionalAt pool.TextAt slot first) (hs : OptionalAt pool.TextAt slot second) :
    first = second := by
  cases first with
  | none =>
    cases second with
    | none => rfl
    | some text => exact absurd hf hs.1
  | some text =>
    cases second with
    | none => exact absurd hs hf.1
    | some other => exact congrArg some (hf.2.unique hs.2)

theorem describesNesting_unique {lines : List StoredNesting} {first second : Option Nesting}
    (hf : pool.DescribesNesting name lines first) (hs : pool.DescribesNesting name lines second) :
    first = second := by
  cases first with
  | none =>
    cases second with
    | none => rfl
    | some nesting =>
      obtain ⟨lead, line, rest, rfl, hc, _⟩ := hs
      exact absurd hc (hf line (by simp))
  | some nesting =>
    obtain ⟨lead, line, rest, rfl, hc, hn, hr⟩ := hf
    cases second with
    | none => exact absurd hc (hs line (by simp))
    | some other =>
      obtain ⟨lead', line', rest', he, hc', hn', hr'⟩ := hs
      cases lastLine_unique he hc hc' hr hr'
      exact congrArg (some ∘ Nesting.mk) (optionalText_unique hn hn')

/-- Attributes come to what their lines tell, one after the other. -/
theorem told_of_attributes {attributes : List StoredClassAttribute} {nestings : List (List Nesting)}
    (h : List.Forall₂ (pool.Says name) attributes nestings) :
    (∀ stored ∈ attributes, pool.WellNamed stored) ∧
      ∃ entries, List.Forall₂ (pool.Tells name) (attributes.flatMap StoredClassAttribute.lines) entries ∧
        nestings.flatten = entries.filterMap id := by
  induction h with
  | nil => exact ⟨by simp, [], .nil, rfl⟩
  | cons hs _ ih =>
    obtain ⟨entries, ht, he⟩ := hs.told
    obtain ⟨hall, others, hts, hes⟩ := ih
    refine ⟨List.forall_mem_cons.2 ⟨hs.wellNamed, hall⟩, entries ++ others, ?_, ?_⟩
    · rw [List.flatMap_cons]
      exact List.rel_append ht hts
    · rw [List.flatten_cons, List.filterMap_append, he, hes]

theorem described_of_attributes {attributes : List StoredClassAttribute} {nestings : List (List Nesting)}
    (h : List.Forall₂ (pool.Says name) attributes nestings) :
    (∀ stored ∈ attributes, pool.WellNamed stored) ∧
      (∀ line ∈ attributes.flatMap StoredClassAttribute.lines, pool.WellNested name line) ∧
      pool.DescribesNesting name (attributes.flatMap StoredClassAttribute.lines)
        nestings.flatten.getLast? := by
  obtain ⟨hnamed, entries, htold, hflat⟩ := told_of_attributes h
  refine ⟨hnamed, fun line hm => ?_, ?_⟩
  · obtain ⟨entry, _, he⟩ := exists_of_forall₂ htold hm
    exact wellNested_iff.2 ⟨entry, he⟩
  · rw [hflat]
    exact describesNesting_of_told htold

/-- Attributes whose lines can be told come to something, and only one nesting describes it. -/
theorem exists_nestings {attributes : List StoredClassAttribute} {nesting : Option Nesting}
    (hn : ∀ stored ∈ attributes, pool.WellNamed stored)
    (hl : ∀ line ∈ attributes.flatMap StoredClassAttribute.lines, pool.WellNested name line)
    (hd : pool.DescribesNesting name (attributes.flatMap StoredClassAttribute.lines) nesting) :
    ∃ nestings, List.Forall₂ (pool.Says name) attributes nestings ∧
      nesting = nestings.flatten.getLast? := by
  have hsays : ∀ stored ∈ attributes, ∃ nestings, pool.Says name stored nestings := by
    intro stored hm
    have hlines : ∀ line ∈ stored.lines, ∃ entry, pool.Tells name line entry :=
      fun line hline => wellNested_iff.1 (hl line (List.mem_flatMap.2 ⟨stored, hm, hline⟩))
    obtain ⟨entries, he⟩ := exists_forall₂ hlines
    exact ⟨_, hn stored hm, entries, he, rfl⟩
  obtain ⟨nestings, hs⟩ := exists_forall₂ hsays
  exact ⟨nestings, hs, describesNesting_unique hd (described_of_attributes hs).2.2⟩

end StoredPool

theorem attributeBody_accepts (pool : StoredPool) (name label : String) (length : Nat) : Accepts (do
      if label = innerClasses then
        return (← Decoder.counted (nestingEntry pool.table name)).filterMap id
      else
        Decoder.skip length
        return []) fun bytes nestings =>
      if label = innerClasses then ∃ lines entries, lines.length < 2 ^ 16 ∧
        bytes = encodeList StoredNesting.encode lines ∧ List.Forall₂ (pool.Tells name) lines entries ∧
        nestings = entries.filterMap id
      else bytes.length = length ∧ nestings = [] := by
  by_cases hl : label = innerClasses
  · simp only [if_pos hl]
    refine ((Decoder.counted_accepts (nestingEntry_accepts pool name)).bind_pure (·.filterMap id)).congr
      fun bytes nestings => ?_
    constructor
    · rintro ⟨entries, ⟨lines, rfl, fits, ht⟩, rfl⟩
      exact ⟨lines, entries, fits, rfl, ht, rfl⟩
    · rintro ⟨lines, entries, fits, rfl, ht, rfl⟩
      exact ⟨entries, ⟨lines, rfl, fits, ht⟩, rfl⟩
  · simp only [if_neg hl]
    exact skipped_accepts length []

theorem classAttribute_accepts (pool : StoredPool) (name : String) :
    (classAttribute pool.table name).Accepts (Coded StoredClassAttribute.encode (pool.Says name)) := by
  refine (lookUp_bind (fun _ _ => pool.text_eq_ok_iff) fun label =>
    (Decoder.unsigned_accepts 4).bind fun length =>
      attributeBody_accepts pool name label length).congr fun bytes nestings => ?_
  constructor
  · rintro ⟨slot, label, _, hlabel, ⟨length, _, body, ⟨hlt, rfl⟩, hb, rfl⟩, rfl⟩
    split at hb
    next he =>
      obtain ⟨lines, entries, fits, rfl, ht, rfl⟩ := hb
      have hlength : (UInt32.ofNat length).toNat = length := UInt32.toNat_ofNat_of_lt' hlt
      refine ⟨.nestings slot (UInt32.ofNat length) lines fits, ?_, ⟨label, hlabel, ?_⟩, entries, ht, rfl⟩
      · simp [StoredClassAttribute.encode, hlength]
      · exact iff_of_true he rfl
    next he =>
      obtain ⟨rfl, rfl⟩ := hb
      refine ⟨.plain ⟨slot, body, hlt⟩, ?_, ⟨label, hlabel, ?_⟩, [], .nil, rfl⟩
      · simp [StoredClassAttribute.encode, StoredAttribute.encode]
      · exact iff_of_false he nofun
  · rintro ⟨stored, rfl, ⟨label, hlabel, hiff⟩, entries, ht, rfl⟩
    cases stored with
    | plain stored =>
      have he : ¬ label = innerClasses := fun he => nomatch hiff.1 he
      cases ht
      refine ⟨stored.name, label, _, hlabel,
        ⟨stored.body.length, _, stored.body, ⟨stored.fits, rfl⟩, ?_, rfl⟩,
        by simp [StoredClassAttribute.encode, StoredAttribute.encode]⟩
      rw [if_neg he]
      exact ⟨rfl, rfl⟩
    | nestings slot length lines fits =>
      have he : label = innerClasses := hiff.2 rfl
      refine ⟨slot, label, _, hlabel, ⟨length.toNat, _, _, ⟨length.toNat_lt, rfl⟩, ?_, rfl⟩,
        by simp [StoredClassAttribute.encode]; rfl⟩
      rw [if_pos he]
      exact ⟨lines, entries, fits, rfl, ht, rfl⟩

theorem members_accepts (pool : StoredPool) : Accepts (do
    let access ← accessFlags
    let name ← pool.table.className (← Decoder.u16)
    let superName ← superclass pool.table
    let interfaces ← Decoder.counted (do pool.table.className (← Decoder.u16))
    let fields ← Decoder.counted (fieldDecoder pool.table)
    let _ ← Decoder.counted skipMethod
    let nestings ← Decoder.counted (classAttribute pool.table name)
    return ({ access, name, superName, interfaces, fields,
              nesting := nestings.flatten.getLast? } : ClassFile))
    fun bytes file => ∃ stored : StoredClass, stored.pool = pool ∧ bytes = stored.encodeMembers ∧
      stored.Describes file := by
  refine (accessFlags_accepts.bind fun _ => lookUp_bind (fun _ _ => pool.className_eq_ok_iff) fun name =>
    (superclass_accepts pool).bind fun _ =>
    (Decoder.counted_accepts (lookUp_accepts fun _ _ => pool.className_eq_ok_iff)).bind fun _ =>
    (Decoder.counted_accepts (field_accepts pool)).bind fun _ =>
    (Decoder.counted_accepts method_accepts).bind fun _ =>
    (Decoder.counted_accepts (classAttribute_accepts pool name)).bind_pure _).congr fun bytes file => ?_
  constructor
  · rintro ⟨_, _, _, ⟨access, rfl, rfl⟩, ⟨this, name, _, hname, ⟨superName, _, _, ⟨super, rfl, hsuper⟩,
      ⟨interfaceNames, _, _, ⟨interfaces, rfl, interfacesFit, hinterfaces⟩,
      ⟨fieldsTold, _, _, ⟨fields, rfl, fieldsFit, hfields⟩,
      ⟨_, _, _, ⟨methods, rfl, methodsFit, _⟩,
      ⟨nestings, ⟨attributes, rfl, attributesFit, hattributes⟩, rfl⟩, rfl⟩, rfl⟩, rfl⟩, rfl⟩, rfl⟩, rfl⟩
    obtain ⟨hnamed, hlines, hnesting⟩ := StoredPool.described_of_attributes hattributes
    exact ⟨⟨0, 0, pool, access, this, super, interfaces, fields, methods, attributes, interfacesFit,
      fieldsFit, methodsFit, attributesFit⟩, rfl, by simp [StoredClass.encodeMembers],
      ⟨rfl, hname, hsuper, hinterfaces, hfields, hnamed, hlines, hnesting⟩⟩
  · rintro ⟨⟨_, _, _, access, this, super, interfaces, fields, methods, attributes, interfacesFit,
      fieldsFit, methodsFit, attributesFit⟩, rfl, rfl,
      ⟨haccess, hname, hsuper, hinterfaces, hfields, hnamed, hlines, hnesting⟩⟩
    obtain ⟨access', name, superName, interfaceNames, fieldsTold, nesting⟩ := file
    obtain ⟨nestings, hsays, hlast⟩ := StoredPool.exists_nestings hnamed hlines hnesting
    obtain ⟨told, hmethods⟩ :
        ∃ told, List.Forall₂ (fun (_ : StoredMember) (_ : Unit) => True) methods told :=
      exists_forall₂ fun _ _ => ⟨(), trivial⟩
    cases haccess
    subst hlast
    refine ⟨_, _, _, ⟨access, rfl, rfl⟩, ⟨this, name, _, hname, ⟨superName, _, _, ⟨super, rfl, hsuper⟩,
      ⟨interfaceNames, _, _, ⟨interfaces, rfl, interfacesFit, hinterfaces⟩,
      ⟨fieldsTold, _, _, ⟨fields, rfl, fieldsFit, hfields⟩,
      ⟨told, _, _, ⟨methods, rfl, methodsFit, hmethods⟩,
      ⟨nestings, ⟨attributes, rfl, attributesFit, hsays⟩, rfl⟩, rfl⟩, rfl⟩, rfl⟩, rfl⟩, rfl⟩, ?_⟩
    simp [StoredClass.encodeMembers]

theorem versions_of_length {bytes : List UInt8} (h : bytes.length = 4) :
    ∃ minor major : UInt16, bytes = numeral 2 minor.toNat ++ numeral 2 major.toNat := by
  obtain ⟨minor, hminor⟩ : ∃ minor : UInt16, bytes.take 2 = numeral 2 minor.toNat :=
    numeral_of_length (by simp [h])
  obtain ⟨major, hmajor⟩ : ∃ major : UInt16, bytes.drop 2 = numeral 2 major.toNat :=
    numeral_of_length (by simp [h])
  exact ⟨minor, major, by rw [← hminor, ← hmajor, List.take_append_drop]⟩

theorem guarded_accepts {body : Decoder α} {language : List UInt8 → α → Prop} (found : Nat)
    (h : body.Accepts language) : Accepts (do
      if found ≠ magic then throw (.badMagic found)
      body) fun bytes value => found = magic ∧ language bytes value := by
  by_cases hf : found = magic
  · rw [if_neg (not_not.2 hf)]
    exact h.congr fun _ _ => by simp [hf]
  · rw [if_pos hf]
    refine ((Accepts.throw _).bind fun _ => h).congr fun bytes value => ?_
    simp [hf]

theorem decoder_accepts : decoder.Accepts (Coded StoredClass.encode StoredClass.Describes) := by
  have hbody : Accepts (do
      Decoder.skip 4
      let pool ← ConstantPool.decoder
      let access ← accessFlags
      let name ← pool.className (← Decoder.u16)
      let superName ← superclass pool
      let interfaces ← Decoder.counted (do pool.className (← Decoder.u16))
      let fields ← Decoder.counted (fieldDecoder pool)
      let _ ← Decoder.counted skipMethod
      let nestings ← Decoder.counted (classAttribute pool name)
      return ({ access, name, superName, interfaces, fields
                nesting := nestings.flatten.getLast? } : ClassFile))
      fun bytes file => ∃ stored : StoredClass, stored.Describes file ∧
        bytes = numeral 2 stored.minorVersion.toNat ++ numeral 2 stored.majorVersion.toNat ++
          stored.pool.encode ++ stored.encodeMembers := by
    refine ((Decoder.skip_accepts 4).bind fun _ => pool_accepts.bind_coded members_accepts).congr
      fun bytes file => ?_
    constructor
    · rintro ⟨_, versions, _, hv, ⟨_, _, ⟨stored, rfl, rfl, hd⟩, rfl⟩, rfl⟩
      obtain ⟨minor, major, rfl⟩ := versions_of_length hv
      obtain ⟨haccess, hname, hsuper, hinterfaces, hfields, hnamed, hlines, hnesting⟩ := hd
      exact ⟨{ stored with minorVersion := minor, majorVersion := major },
        ⟨haccess, hname, hsuper, hinterfaces, hfields, hnamed, hlines, hnesting⟩,
        (List.append_assoc _ _ _).symm⟩
    · rintro ⟨stored, hd, rfl⟩
      exact ⟨(), _, _, by simp, ⟨stored.pool, _, ⟨stored, rfl, rfl, hd⟩, rfl⟩, List.append_assoc _ _ _⟩
  have hmagic : numeral 4 magic = [0xCA, 0xFE, 0xBA, 0xBE] := by decide
  refine ((Decoder.unsigned_accepts 4).bind fun found => guarded_accepts found hbody).congr
    fun bytes file => ?_
  constructor
  · rintro ⟨_, _, _, ⟨_, rfl⟩, ⟨rfl, stored, hd, rfl⟩, rfl⟩
    exact ⟨stored, by simp [hmagic, StoredClass.encode], hd⟩
  · rintro ⟨stored, rfl, hd⟩
    exact ⟨magic, _, _, ⟨by decide, rfl⟩, ⟨rfl, stored, hd, rfl⟩, by simp [hmagic, StoredClass.encode]⟩

/-- The parser accepts exactly the class files that can be stored, whatever follows them, and returns what
they say. -/
theorem parse_eq_ok_iff {bytes : List UInt8} {file : ClassFile} :
    parse bytes = .ok file ↔ ∃ (stored : StoredClass) (trailing : List UInt8),
      bytes = stored.encode ++ trailing ∧ stored.Describes file := by
  have hrun : parse bytes = .ok file ↔ ∃ later, decoder ⟨bytes, 0⟩ = .ok (file, later) := by
    change (decoder ⟨bytes, 0⟩).map (·.1) = .ok file ↔ _
    cases decoder ⟨bytes, 0⟩ with
    | error error => simp [Except.map]
    | ok after => simp [Except.map, Prod.ext_iff]
  rw [hrun]
  constructor
  · rintro ⟨later, hd⟩
    obtain ⟨_, ⟨stored, rfl, hs⟩, hb, _⟩ := (decoder_accepts _ _ _).1 hd
    exact ⟨stored, later.rest, hb, hs⟩
  · rintro ⟨stored, trailing, hb, hs⟩
    exact ⟨⟨trailing, 0 + stored.encode.length⟩,
      (decoder_accepts _ _ _).2 ⟨stored.encode, ⟨stored, rfl, hs⟩, hb, rfl⟩⟩

end SerialManifest.ClassFile
