import SerialManifest.Proofs.TruncatedClassFile

namespace SerialManifest.ClassFile

open Decoder (Accepts Takes encodeList)

variable {α γ : Type}

/-- The places at which a decoder begins when it is run so many times, and the place at which it ends. They
break off where it fails. -/
def Decoder.places (item : Decoder α) : (n : Nat) → Cursor → List Nat
  | 0, cursor => [cursor.offset]
  | n + 1, cursor =>
    match item cursor with
    | .ok (_, later) => cursor.offset :: places item n later
    | .error _ => [cursor.offset]

/-- What is read of a class in front of its attributes: its constants, what it says but for its nesting, and
the number of its attributes. -/
def front : Decoder (ConstantPool × ClassFile × Nat) := do
  let found ← Decoder.u32
  if found ≠ magic then throw (.badMagic found)
  Decoder.skip 4
  let pool ← ConstantPool.decoder
  let access ← accessFlags
  let name ← pool.className (← Decoder.u16)
  let superName ← superclass pool
  let interfaces ← Decoder.counted (do pool.className (← Decoder.u16))
  let fields ← Decoder.counted (fieldDecoder pool)
  let _ ← Decoder.counted skipMethod
  let count ← Decoder.u16
  return (pool, { access, name, superName, interfaces, fields, nesting := none }, count)

/-- The parser reads the attributes behind the front, one after the other. -/
theorem decoder_eq_front : decoder = do
    let (pool, file, count) ← front
    let nestings ← Decoder.repeated (classAttribute pool file.name) count
    return { file with nesting := nestings.flatten.getLast? } := by
  unfold decoder front
  rw [bind_assoc]
  refine congrArg (Decoder.u32 >>= ·) (funext fun found => ?_)
  by_cases hfound : found = magic
  · simp only [hfound, ne_eq, not_true_eq_false, if_false, bind_assoc, pure_bind, Decoder.counted]
  · simp only [hfound, ne_eq, not_false_eq_true, if_true]
    rfl

/-- The places at which the attributes of a class begin and the last one ends for the parser, which reads them
behind the front (`decoder_eq_front`). -/
def attributePlaces (bytes : List UInt8) : Except FormatError (List Nat) :=
  (front ⟨bytes, 0⟩).map fun ((pool, file, count), start) =>
    (classAttribute pool file.name).places count start

/-- The places at which they would begin and end if each took up the length in its header. -/
def declaredPlaces (bytes : List UInt8) : Except FormatError (List Nat) :=
  (front ⟨bytes, 0⟩).map fun ((_, _, count), start) => skipAttribute.places count start

namespace StoredClassAttribute

def declared : StoredClassAttribute → Nat
  | plain stored => stored.body.length
  | nestings _ length _ _ => length.toNat

def body : StoredClassAttribute → List UInt8
  | plain stored => stored.body
  | nestings _ _ lines _ => encodeList StoredNesting.encode lines

def withLength (length : UInt32) : StoredClassAttribute → StoredClassAttribute
  | plain stored => plain stored
  | nestings name _ lines fits => nestings name length lines fits

variable (item : StoredClassAttribute)

theorem encode_eq : item.encode = numeral 2 item.name.toNat ++ (numeral 4 item.declared ++ item.body) := by
  cases item <;> simp [encode, name, declared, body, StoredAttribute.encode]

theorem declared_lt : item.declared < 2 ^ 32 := by
  cases item with
  | plain stored => exact stored.fits
  | nestings _ length _ _ => exact length.toNat_lt

theorem length_encode : item.encode.length = 6 + item.body.length := by
  rw [item.encode_eq]
  simp only [List.length_append, length_numeral]
  omega

theorem length_table (lines : List StoredNesting) :
    (encodeList StoredNesting.encode lines).length = 2 + 8 * lines.length := by
  have hline : ∀ line : StoredNesting, line.encode.length = 8 := fun line => by simp [StoredNesting.encode]
  have hlines : (lines.flatMap StoredNesting.encode).length = 8 * lines.length := by
    induction lines with
    | nil => rfl
    | cons line lines ih =>
      rw [List.flatMap_cons, List.length_append, hline, ih, List.length_cons]
      omega
  rw [encodeList, List.length_append, length_numeral, hlines]

theorem declared_eq_iff : item.declared = item.body.length ↔
    ∀ name length lines fits, item = nestings name length lines fits → length.toNat = 2 + 8 * lines.length := by
  cases item with
  | plain stored => simp [declared, body]
  | nestings name length lines fits =>
    simp only [declared, body, length_table]
    constructor
    · rintro h _ _ _ _ ⟨⟩
      exact h
    · exact fun h => h name length lines fits rfl

end StoredClassAttribute

namespace StoredClass

def encodeFront (stored : StoredClass) : List UInt8 :=
  [0xCA, 0xFE, 0xBA, 0xBE] ++ (numeral 2 stored.minorVersion.toNat ++ numeral 2 stored.majorVersion.toNat) ++
    stored.pool.encode ++ numeral 2 stored.access.toNat ++ numeral 2 stored.this.toNat ++
    numeral 2 stored.super.toNat ++ encodeList (fun slot => numeral 2 slot.toNat) stored.interfaces ++
    encodeList StoredMember.encode stored.fields ++ encodeList StoredMember.encode stored.methods ++
    numeral 2 stored.attributes.length

/-- The class with other lengths in the headers of its tables. -/
def withLengths (stored : StoredClass) (length : StoredClassAttribute → UInt32) : StoredClass :=
  { stored with
    attributes := stored.attributes.map fun item => item.withLength (length item)
    attributesFit := (List.length_map _).symm ▸ stored.attributesFit }

theorem encode_eq_front (stored : StoredClass) :
    stored.encode = stored.encodeFront ++ stored.attributes.flatMap StoredClassAttribute.encode := by
  simp [encode, encodeMembers, encodeFront, encodeList]

theorem nestings_withLengths (stored : StoredClass) (length : StoredClassAttribute → UInt32) :
    (stored.withLengths length).nestings = stored.nestings := by
  have hlines : ∀ item : StoredClassAttribute, (item.withLength (length item)).lines = item.lines :=
    fun item => by cases item <;> rfl
  simp [nestings, withLengths, List.flatMap_map, hlines]

/-- The length of a table does not matter for what the class says. -/
theorem Describes.withLengths {stored : StoredClass} {file : ClassFile} (h : stored.Describes file)
    (length : StoredClassAttribute → UInt32) : (stored.withLengths length).Describes file := by
  obtain ⟨haccess, hname, hsuper, hinterfaces, hfields, hnamed, hlines, hnesting⟩ := h
  rw [← nestings_withLengths stored length] at hlines hnesting
  refine ⟨haccess, hname, hsuper, hinterfaces, hfields, fun item hm => ?_, hlines, hnesting⟩
  obtain ⟨former, hf, rfl⟩ := List.mem_map.1 hm
  have hwell := hnamed former hf
  cases former with
  | plain _ => exact hwell
  | nestings _ _ _ _ => exact hwell

end StoredClass

namespace Decoder

variable {item : Decoder α} {cursor later : Cursor}

theorem places_of_ok {value : α} (h : item cursor = .ok (value, later)) (n : Nat) :
    item.places (n + 1) cursor = cursor.offset :: item.places n later := by
  rw [places, h]

theorem places_of_error {error : FormatError} (h : item cursor = .error error) (n : Nat) :
    item.places (n + 1) cursor = [cursor.offset] := by
  rw [places, h]

theorem head?_places (item : Decoder α) (n : Nat) (cursor : Cursor) :
    (item.places n cursor).head? = some cursor.offset := by
  cases n with
  | zero => rfl
  | succ n =>
    cases h : item cursor with
    | ok after => rw [places_of_ok h, List.head?_cons]
    | error error => rw [places_of_error h, List.head?_cons]

theorem getLast?_places {n : Nat} {values : List α} (h : repeated item n cursor = .ok (values, later)) :
    (item.places n cursor).getLast? = some later.offset := by
  induction n generalizing cursor values with
  | zero =>
    cases h
    rfl
  | succ n ih =>
    rw [repeated, run_bind, Except.bind_eq_ok_iff] at h
    obtain ⟨⟨first, middle⟩, hitem, hrest⟩ := h
    rw [run_bind, Except.bind_eq_ok_iff] at hrest
    obtain ⟨⟨others, last⟩, hothers, he⟩ := hrest
    cases he
    rw [places_of_ok hitem, List.getLast?_cons, ih hothers]
    rfl

theorem places_of_takes {encode : γ → List UInt8} {pieces : List γ}
    (h : ∀ piece ∈ pieces, ∃ value, item.Takes (encode piece) value) (rest : List UInt8) (offset : Nat) :
    item.places pieces.length ⟨pieces.flatMap encode ++ rest, offset⟩ =
      (pieces.map fun piece => (encode piece).length).scanl (· + ·) offset := by
  induction pieces generalizing offset with
  | nil => rfl
  | cons piece pieces ih =>
    obtain ⟨value, htakes⟩ := h piece List.mem_cons_self
    have hlater := ih (fun other hm => h other (List.mem_cons_of_mem piece hm)) (offset + (encode piece).length)
    rw [List.flatMap_cons, List.append_assoc, List.length_cons, places_of_ok (htakes _ _), hlater,
      List.map_cons, List.scanl_cons]

end Decoder

/-- The last attribute ends where the parser stops. -/
theorem getLast?_attributePlaces {bytes : List UInt8} {file : ClassFile} (h : parse bytes = .ok file) :
    (attributePlaces bytes).map List.getLast? = (taken bytes).map some := by
  obtain ⟨⟨_, later⟩, hrun, rfl⟩ := Except.map_eq_ok_iff.1 h
  have hrun : decoder ⟨bytes, 0⟩ = .ok (_, later) := hrun
  have htaken : taken bytes = .ok later.offset := by
    rw [taken_eq, hrun]
    rfl
  rw [decoder_eq_front, Decoder.run_bind, Except.bind_eq_ok_iff] at hrun
  obtain ⟨⟨⟨pool, file, count⟩, start⟩, hfront, hrest⟩ := hrun
  dsimp only at hrest
  rw [Decoder.run_bind, Except.bind_eq_ok_iff] at hrest
  obtain ⟨⟨nestings, last⟩, hnestings, he⟩ := hrest
  cases he
  rw [attributePlaces, hfront, htaken]
  exact congrArg Except.ok (Decoder.getLast?_places hnestings)

/-- The name and the length in front of an attribute are read, and then it is passed over. -/
theorem skipAttribute_header (name : UInt16) {declared : Nat} (h : declared < 2 ^ 32) (rest : List UInt8)
    (offset : Nat) : skipAttribute ⟨numeral 2 name.toNat ++ (numeral 4 declared ++ rest), offset⟩ =
      Decoder.skip declared ⟨rest, offset + 6⟩ := by
  have hname : (Decoder.skip 2).Takes (numeral 2 name.toNat) () :=
    (Decoder.skip_accepts 2).takes (length_numeral 2 _)
  have hlength : Decoder.u32.Takes (numeral 4 declared) declared := (Decoder.unsigned_accepts 4).takes ⟨h, rfl⟩
  rw [skipAttribute, hname.run_bind, hlength.run_bind, length_numeral, length_numeral]

theorem takes_skipAttribute {item : StoredClassAttribute} (h : item.declared = item.body.length) :
    skipAttribute.Takes item.encode () := by
  intro rest offset
  have hbody : (Decoder.skip item.declared).Takes item.body () := (Decoder.skip_accepts _).takes h.symm
  rw [item.length_encode, item.encode_eq, List.append_assoc, List.append_assoc,
    skipAttribute_header _ item.declared_lt, hbody, Nat.add_assoc]

/-- The lengths in the headers lead from each attribute to the next only if they are the lengths of what
stands behind the headers. -/
theorem places_skipAttribute_iff (items : List StoredClassAttribute) (rest : List UInt8) (offset : Nat) :
    skipAttribute.places items.length ⟨items.flatMap StoredClassAttribute.encode ++ rest, offset⟩ =
        (items.map fun item => item.encode.length).scanl (· + ·) offset ↔
      ∀ item ∈ items, item.declared = item.body.length := by
  constructor
  · intro h
    induction items generalizing offset with
    | nil => exact fun item hm => absurd hm List.not_mem_nil
    | cons item items ih =>
      have hrun := skipAttribute_header item.name item.declared_lt
        (item.body ++ (items.flatMap StoredClassAttribute.encode ++ rest)) offset
      rw [List.length_cons, List.flatMap_cons, List.map_cons, List.scanl_cons, List.append_assoc] at h
      rw [← List.append_assoc, ← List.append_assoc, List.append_assoc (numeral 2 _), ← item.encode_eq] at hrun
      cases hskip : Decoder.skip item.declared
          ⟨item.body ++ (items.flatMap StoredClassAttribute.encode ++ rest), offset + 6⟩ with
      | error error =>
        -- the places break off here, but there is another one
        rw [Decoder.places_of_error (hrun.trans hskip)] at h
        have hlength := congrArg List.length h
        rw [List.length_cons, List.length_cons, List.length_scanl] at hlength
        simp at hlength
      | ok after =>
        obtain ⟨⟨⟩, later⟩ := after
        rw [Decoder.places_of_ok (hrun.trans hskip)] at h
        have htail := (List.cons.inj h).2
        -- the second attribute begins where the first header leads
        have hplace : later.offset = offset + item.encode.length := by
          have hhead := congrArg List.head? htail
          rw [Decoder.head?_places, List.head?_scanl] at hhead
          exact Option.some.inj hhead
        have hdeclared : item.declared = item.body.length := by
          obtain ⟨lead, hlead, _, hoffset⟩ := (Decoder.skip_accepts _ _ _ _).1 hskip
          have hoffset : later.offset = offset + 6 + lead.length := hoffset
          rw [item.length_encode, hoffset, hlead] at hplace
          omega
        have htakes := takes_skipAttribute hdeclared (items.flatMap StoredClassAttribute.encode ++ rest) offset
        rw [hrun.trans hskip] at htakes
        cases htakes
        exact List.forall_mem_cons.2 ⟨hdeclared, ih _ htail⟩
  · exact fun h => Decoder.places_of_takes (fun item hm => ⟨(), takes_skipAttribute (h item hm)⟩) rest offset

theorem front_takes {stored : StoredClass} {file : ClassFile} (h : stored.Describes file) :
    front.Takes stored.encodeFront
      (stored.pool.table, { file with nesting := none }, stored.attributes.length) := by
  have hmagic : Decoder.u32.Takes [0xCA, 0xFE, 0xBA, 0xBE] magic :=
    (Decoder.unsigned_accepts 4).takes ⟨by decide, by decide⟩
  have hversions : (Decoder.skip 4).Takes
      (numeral 2 stored.minorVersion.toNat ++ numeral 2 stored.majorVersion.toNat) () :=
    (Decoder.skip_accepts 4).takes (by simp)
  have hpool : ConstantPool.decoder.Takes stored.pool.encode stored.pool.table :=
    pool_accepts.takes ⟨stored.pool, rfl, rfl⟩
  have haccess : accessFlags.Takes (numeral 2 stored.access.toNat) file.access :=
    accessFlags_accepts.takes ⟨stored.access, rfl, h.access⟩
  have hsuper : (superclass stored.pool.table).Takes (numeral 2 stored.super.toNat) file.superName :=
    (superclass_accepts stored.pool).takes ⟨stored.super, rfl, h.superName⟩
  have hcount : Decoder.u16.Takes (numeral 2 stored.attributes.length) stored.attributes.length :=
    (Decoder.unsigned_accepts 2).takes ⟨stored.attributesFit, rfl⟩
  have hthis : Decoder.u16.Takes (numeral 2 stored.this.toNat) stored.this.toNat :=
    Decoder.u16_accepts.takes ⟨stored.this, rfl, rfl⟩
  have hname : Takes (liftM (stored.pool.table.className stored.this.toNat)) [] file.name :=
    (Accepts.lift _).takes ⟨rfl, stored.pool.className_eq_ok_iff.2 h.name⟩
  have hinterfaces := (Decoder.counted_accepts (lookUp_accepts fun _ _ =>
    stored.pool.className_eq_ok_iff)).takes ⟨stored.interfaces, rfl, stored.interfacesFit, h.interfaces⟩
  have hfields := (Decoder.counted_accepts (field_accepts stored.pool)).takes
    ⟨stored.fields, rfl, stored.fieldsFit, h.fields⟩
  obtain ⟨told, hmethods⟩ : ∃ told, (Decoder.counted skipMethod).Takes
      (encodeList StoredMember.encode stored.methods) told := by
    obtain ⟨told, htold⟩ : ∃ told, List.Forall₂ (fun (_ : StoredMember) (_ : Unit) => True)
        stored.methods told := exists_forall₂ fun _ _ => ⟨(), trivial⟩
    exact ⟨told, (Decoder.counted_accepts method_accepts).takes ⟨stored.methods, rfl, stored.methodsFit, htold⟩⟩
  -- the parts in the order in which they are read
  have hguarded : front.Takes _ (stored.pool.table, { file with nesting := none }, stored.attributes.length) :=
    hmagic.bind (by
      rw [if_neg (not_not.2 rfl)]
      exact hversions.bind (hpool.bind (haccess.bind (hthis.bind (hname.bind (hsuper.bind (hinterfaces.bind
        (hfields.bind (hmethods.bind (hcount.bind (Takes.pure _)))))))))))
  simpa [StoredClass.encodeFront] using hguarded

section Places

variable {stored : StoredClass} {file : ClassFile}

theorem attributePlaces_of_describes (h : stored.Describes file) (trailing : List UInt8) :
    attributePlaces (stored.encode ++ trailing) =
      .ok ((stored.attributes.map fun item => item.encode.length).scanl (· + ·) stored.encodeFront.length) := by
  obtain ⟨nestings, hsays, _⟩ := StoredPool.exists_nestings h.attributes h.lines h.nesting
  have hitems : ∀ item ∈ stored.attributes, ∃ told,
      (classAttribute stored.pool.table file.name).Takes item.encode told := by
    intro item hm
    obtain ⟨told, _, ht⟩ := exists_of_forall₂ hsays hm
    exact ⟨told, (classAttribute_accepts stored.pool file.name).takes ⟨item, rfl, ht⟩⟩
  rw [attributePlaces, stored.encode_eq_front, List.append_assoc, front_takes h, Nat.zero_add]
  exact congrArg Except.ok (Decoder.places_of_takes hitems trailing _)

theorem declaredPlaces_of_describes (h : stored.Describes file) (trailing : List UInt8) :
    declaredPlaces (stored.encode ++ trailing) = .ok (skipAttribute.places stored.attributes.length
      ⟨stored.attributes.flatMap StoredClassAttribute.encode ++ trailing, stored.encodeFront.length⟩) := by
  rw [declaredPlaces, stored.encode_eq_front, List.append_assoc, front_takes h, Nat.zero_add]
  rfl

end Places

/-- In a class that is accepted, an attribute takes up the length in its header, but a table of nested classes
takes up the number of its lines and the lines, whatever length is in its header. So the attributes lie where
the headers tell if and only if the length of each table is right, and the class is accepted with the same
answer if it is not. -/
theorem parse_delimits_tables_by_lines {bytes : List UInt8} {file : ClassFile} (h : parse bytes = .ok file) :
    ∃ (stored : StoredClass) (trailing : List UInt8), bytes = stored.encode ++ trailing ∧
      stored.Describes file ∧
      attributePlaces bytes = .ok ((stored.attributes.map fun item => item.encode.length).scanl (· + ·)
        stored.encodeFront.length) ∧
      (attributePlaces bytes).map List.getLast? = (taken bytes).map some ∧
      (declaredPlaces bytes = attributePlaces bytes ↔
        ∀ name length lines fits, .nestings name length lines fits ∈ stored.attributes →
          length.toNat = 2 + 8 * lines.length) ∧
      ∀ length, parse ((stored.withLengths length).encode ++ trailing) = .ok file := by
  obtain ⟨stored, trailing, rfl, hdescribes⟩ := parse_eq_ok_iff.1 h
  have hread := attributePlaces_of_describes hdescribes trailing
  refine ⟨stored, trailing, rfl, hdescribes, hread, getLast?_attributePlaces h, ?_, fun length => ?_⟩
  · rw [hread, declaredPlaces_of_describes hdescribes, Except.ok.injEq, places_skipAttribute_iff]
    simp only [StoredClassAttribute.declared_eq_iff]
    constructor
    · exact fun hall name length lines fits hm => hall _ hm name length lines fits rfl
    · rintro hall item hm name length lines fits rfl
      exact hall name length lines fits hm
  · exact parse_eq_ok_iff.2 ⟨_, trailing, rfl, hdescribes.withLengths length⟩

/-- A class with two tables. The first one is empty, but by the length in its header the second one is part
of it. The second one tells that the class is anonymous. -/
def driftingBytes : List UInt8 :=
  numeral 4 magic ++ numeral 4 52 ++
    numeral 2 4 ++ [1, 0, 1, 65] ++ [7, 0, 1] ++ 1 :: numeral 2 12 ++ Text.Utf8.encode innerClasses ++
    numeral 2 0x21 ++ numeral 2 2 ++ numeral 8 0 ++
    numeral 2 2 ++
    numeral 2 3 ++ numeral 4 18 ++ numeral 2 0 ++
    numeral 2 3 ++ numeral 4 10 ++ numeral 2 1 ++ numeral 2 2 ++ numeral 6 0

/-- The first header leads to the end of the file, where there is no second attribute, but the parser finds one
before the end. -/
theorem places_of_driftingBytes :
    (parse driftingBytes).toOption.map (·.simpleName) = some "" ∧ driftingBytes.length = 70 ∧
      (attributePlaces driftingBytes).toOption = some [46, 54, 70] ∧
      (declaredPlaces driftingBytes).toOption = some [46, 70] := by
  decide +kernel

/-- Its tables can be given any lengths. -/
theorem parse_of_driftingBytes :
    ∃ (stored : StoredClass) (trailing : List UInt8), driftingBytes = stored.encode ++ trailing ∧
      (∃ name length lines fits, .nestings name length lines fits ∈ stored.attributes ∧
        length.toNat ≠ 2 + 8 * lines.length) ∧
      ∀ length, parse ((stored.withLengths length).encode ++ trailing) = parse driftingBytes := by
  have hsome : (parse driftingBytes).toOption.isSome = true := by decide +kernel
  have hdrifts : (declaredPlaces driftingBytes).toOption ≠ (attributePlaces driftingBytes).toOption := by
    decide +kernel
  obtain ⟨file, hparse⟩ := Except.isSome_toOption_iff.1 hsome
  obtain ⟨stored, trailing, hbytes, _, _, _, hiff, hany⟩ := parse_delimits_tables_by_lines hparse
  refine ⟨stored, trailing, hbytes, ?_, fun length => (hany length).trans hparse.symm⟩
  by_contra hall
  refine hdrifts (congrArg _ (hiff.2 fun name length lines fits hm => ?_))
  by_contra hne
  exact hall ⟨name, length, lines, fits, hm, hne⟩

end SerialManifest.ClassFile
