import Mathlib.Algebra.Group.Nat.Defs
import Mathlib.Data.List.Forall2
import Mathlib.Data.List.Induction
import SerialManifest.ClassFile.Decoder

namespace SerialManifest.ClassFile

/-- The last `width` digits of a number to the base 256, the most significant first. -/
def numeral : (width value : Nat) → List UInt8
  | 0, _ => []
  | width + 1, value => numeral width (value / 256) ++ [UInt8.ofNat value]

@[simp] theorem length_numeral (width value : Nat) : (numeral width value).length = width := by
  induction width generalizing value with
  | zero => rfl
  | succ width ih => simp [numeral, ih]

theorem bigEndian_concat (bytes : List UInt8) (last : UInt8) :
    bigEndian (bytes ++ [last]) = bigEndian bytes * 256 + last.toNat := by
  simp [bigEndian]

theorem bigEndian_numeral {width value : Nat} (h : value < 256 ^ width) :
    bigEndian (numeral width value) = value := by
  induction width generalizing value with
  | zero =>
    have hv : value = 0 := by simpa using h
    simp [hv, numeral, bigEndian]
  | succ width ih =>
    have hlead : value / 256 < 256 ^ width := by
      rw [Nat.div_lt_iff_lt_mul (by decide)]
      rwa [← Nat.pow_succ]
    rw [numeral, bigEndian_concat, ih hlead, UInt8.toNat_ofNat']
    omega

theorem bigEndian_lt (bytes : List UInt8) : bigEndian bytes < 256 ^ bytes.length := by
  induction bytes using List.reverseRecOn with
  | nil => simp [bigEndian]
  | append_singleton bytes last ih =>
    have hlast := last.toNat_lt
    rw [bigEndian_concat, List.length_append, List.length_singleton, Nat.pow_succ]
    omega

theorem numeral_bigEndian (bytes : List UInt8) : numeral bytes.length (bigEndian bytes) = bytes := by
  induction bytes using List.reverseRecOn with
  | nil => rfl
  | append_singleton bytes last ih =>
    have hlast := last.toNat_lt
    have hlead : (bigEndian bytes * 256 + last.toNat) / 256 = bigEndian bytes := by omega
    have hdigit : UInt8.ofNat (bigEndian bytes * 256 + last.toNat) = last := by
      rw [← UInt8.toNat_inj, UInt8.toNat_ofNat']
      omega
    rw [bigEndian_concat, List.length_append, List.length_singleton, numeral, hlead, ih, hdigit]

namespace Decoder

variable {α β γ : Type}

theorem run_bind (decoder : Decoder α) (next : α → Decoder β) (cursor : Cursor) :
    (decoder >>= next) cursor = (decoder cursor).bind fun after => next after.1 after.2 :=
  rfl

/-- The decoder accepts these bytes with these meanings, whatever follows them, and no others. -/
def Accepts (decoder : Decoder α) (language : List UInt8 → α → Prop) : Prop :=
  ∀ cursor value later, decoder cursor = .ok (value, later) ↔ ∃ bytes, language bytes value ∧
    cursor.rest = bytes ++ later.rest ∧ later.offset = cursor.offset + bytes.length

/-- The bytes that stand for something, with what they mean. -/
def Coded (encode : γ → List UInt8) (means : γ → α → Prop) (bytes : List UInt8) (value : α) : Prop :=
  ∃ stored, bytes = encode stored ∧ means stored value

namespace Accepts

variable {decoder : Decoder α} {language other : List UInt8 → α → Prop}

theorem congr (h : decoder.Accepts language)
    (he : ∀ bytes value, language bytes value ↔ other bytes value) :
    decoder.Accepts other := by
  intro cursor value later
  rw [h cursor value later]
  simp only [he]

theorem pure (value : α) : Accepts (Pure.pure value) fun bytes result => bytes = [] ∧ result = value := by
  rintro ⟨rest, offset⟩ result ⟨rest', offset'⟩
  have hrun : (Pure.pure value : Decoder α) ⟨rest, offset⟩ = .ok (value, ⟨rest, offset⟩) := rfl
  rw [hrun]
  constructor
  · intro h
    cases h
    exact ⟨[], ⟨rfl, rfl⟩, rfl, rfl⟩
  · rintro ⟨_, ⟨rfl, rfl⟩, hr, ho⟩
    simp_all

theorem throw (error : FormatError) : Accepts (throw error : Decoder α) fun _ _ => False := by
  intro cursor value later
  constructor
  · intro h
    cases h
  · rintro ⟨_, hf, _⟩
    exact hf.elim

theorem lift (outcome : Except FormatError α) :
    Accepts (liftM outcome) fun bytes value => bytes = [] ∧ outcome = .ok value := by
  cases outcome with
  | error error =>
    refine (throw error).congr fun bytes value => ?_
    simp
  | ok found =>
    refine (pure found).congr fun bytes value => ?_
    simp [eq_comm]

theorem bind_of {next : α → Decoder β} {rest : α → List UInt8 → β → Prop} (h : decoder.Accepts language)
    (hn : ∀ lead value, language lead value → (next value).Accepts (rest value)) :
    (decoder >>= next).Accepts fun bytes result => ∃ value lead tail,
      language lead value ∧ rest value tail result ∧ bytes = lead ++ tail := by
  intro cursor result later
  have hrun : (decoder >>= next) cursor = .ok (result, later) ↔
      ∃ value middle, decoder cursor = .ok (value, middle) ∧ next value middle = .ok (result, later) := by
    change (decoder cursor).bind _ = _ ↔ _
    cases hd : decoder cursor with
    | error error => simp [Except.bind]
    | ok after =>
      obtain ⟨value, middle⟩ := after
      simp only [Except.bind, Except.ok.injEq, Prod.mk.injEq]
      constructor
      · exact fun hr => ⟨value, middle, ⟨rfl, rfl⟩, hr⟩
      · rintro ⟨_, _, ⟨rfl, rfl⟩, hr⟩
        exact hr
  rw [hrun]
  constructor
  · rintro ⟨value, middle, hd, hr⟩
    obtain ⟨lead, hl, hc, ho⟩ := (h cursor value middle).1 hd
    obtain ⟨tail, ht, hc', ho'⟩ := (hn lead value hl middle result later).1 hr
    refine ⟨lead ++ tail, ⟨value, lead, tail, hl, ht, rfl⟩, ?_, ?_⟩
    · rw [hc, hc', List.append_assoc]
    · rw [ho', ho, List.length_append, Nat.add_assoc]
  · rintro ⟨_, ⟨value, lead, tail, hl, ht, rfl⟩, hc, ho⟩
    refine ⟨value, ⟨tail ++ later.rest, cursor.offset + lead.length⟩, ?_, ?_⟩
    · exact (h cursor value _).2 ⟨lead, hl, by rw [hc, List.append_assoc], rfl⟩
    · refine (hn lead value hl _ result later).2 ⟨tail, ht, rfl, ?_⟩
      rw [ho, List.length_append, Nat.add_assoc]

theorem bind {next : α → Decoder β} {rest : α → List UInt8 → β → Prop} (h : decoder.Accepts language)
    (hn : ∀ value, (next value).Accepts (rest value)) :
    (decoder >>= next).Accepts fun bytes result => ∃ value lead tail,
      language lead value ∧ rest value tail result ∧ bytes = lead ++ tail :=
  h.bind_of fun _ value _ => hn value

theorem bind_pure (h : decoder.Accepts language) (tell : α → β) :
    (decoder >>= fun value => Pure.pure (tell value)).Accepts fun bytes result =>
      ∃ value, language bytes value ∧ result = tell value := by
  refine (h.bind fun value => pure (tell value)).congr fun bytes result => ?_
  constructor
  · rintro ⟨value, lead, _, hl, ⟨rfl, rfl⟩, rfl⟩
    exact ⟨value, by rwa [List.append_nil], rfl⟩
  · rintro ⟨value, hl, rfl⟩
    exact ⟨value, bytes, [], hl, ⟨rfl, rfl⟩, (List.append_nil bytes).symm⟩

/-- What a decoder accepts, it accepts in any language that describes it. -/
theorem unique (h : decoder.Accepts language) (ho : decoder.Accepts other) {bytes : List UInt8} {value : α}
    (hl : language bytes value) : other bytes value := by
  have hrun := (h ⟨bytes, 0⟩ value ⟨[], bytes.length⟩).2
    ⟨bytes, hl, (List.append_nil bytes).symm, (Nat.zero_add _).symm⟩
  obtain ⟨taken, ht, he, _⟩ := (ho _ _ _).1 hrun
  have htaken : bytes = taken := by simpa using he
  exact htaken ▸ ht

/-- The next decoder may go by what has been stored, if that tells what is read. -/
theorem bind_coded {encode : γ → List UInt8} {tell : γ → α} {next : α → Decoder β}
    {rest : γ → List UInt8 → β → Prop}
    (h : decoder.Accepts (Coded encode fun stored value => value = tell stored))
    (hn : ∀ stored, (next (tell stored)).Accepts (rest stored)) :
    (decoder >>= next).Accepts fun bytes result => ∃ stored tail, rest stored tail result ∧
      bytes = encode stored ++ tail := by
  have hnext : ∀ lead value, Coded encode (fun stored value => value = tell stored) lead value →
      (next value).Accepts fun tail result => ∃ stored, tell stored = value ∧ rest stored tail result := by
    rintro _ _ ⟨stored, rfl, rfl⟩
    refine (hn stored).congr fun tail result => ⟨fun hr => ⟨stored, rfl, hr⟩, ?_⟩
    rintro ⟨other, ho, hr⟩
    exact (ho ▸ hn other).unique (hn stored) hr
  refine (h.bind_of hnext).congr fun bytes result => ?_
  constructor
  · rintro ⟨_, _, tail, ⟨stored, rfl, rfl⟩, ⟨other, ho, hr⟩, rfl⟩
    exact ⟨stored, tail, (ho ▸ hn other).unique (hn stored) hr, rfl⟩
  · rintro ⟨stored, tail, hr, rfl⟩
    exact ⟨tell stored, _, tail, ⟨stored, rfl, rfl⟩, ⟨stored, rfl, hr⟩, rfl⟩

theorem bind_coded_nil {encode : γ → List UInt8} {tell : γ → α} {next : α → Decoder β}
    {means : γ → β → Prop}
    (h : decoder.Accepts (Coded encode fun stored value => value = tell stored))
    (hn : ∀ stored, (next (tell stored)).Accepts fun bytes result => bytes = [] ∧ means stored result) :
    (decoder >>= next).Accepts (Coded encode means) := by
  refine (h.bind_coded hn).congr fun bytes result => ?_
  constructor
  · rintro ⟨stored, _, ⟨rfl, hm⟩, rfl⟩
    exact ⟨stored, List.append_nil _, hm⟩
  · rintro ⟨stored, rfl, hm⟩
    exact ⟨stored, [], ⟨rfl, hm⟩, (List.append_nil _).symm⟩

end Accepts

/-- The decoder takes these bytes and makes this of them, whatever follows. -/
def Takes (decoder : Decoder α) (bytes : List UInt8) (value : α) : Prop :=
  ∀ rest offset, decoder ⟨bytes ++ rest, offset⟩ = .ok (value, ⟨rest, offset + bytes.length⟩)

theorem Accepts.takes {decoder : Decoder α} {language : List UInt8 → α → Prop}
    (h : decoder.Accepts language) {bytes : List UInt8} {value : α} (hl : language bytes value) :
    decoder.Takes bytes value :=
  fun _ _ => (h _ _ _).2 ⟨bytes, hl, rfl, rfl⟩

namespace Takes

theorem pure (value : α) : Takes (Pure.pure value) [] value :=
  fun _ _ => rfl

theorem run_bind {decoder : Decoder α} {bytes : List UInt8} {value : α} (h : decoder.Takes bytes value)
    (next : α → Decoder β) (rest : List UInt8) (offset : Nat) :
    (decoder >>= next) ⟨bytes ++ rest, offset⟩ = next value ⟨rest, offset + bytes.length⟩ := by
  rw [Decoder.run_bind, h]
  rfl

theorem bind {decoder : Decoder α} {next : α → Decoder β} {lead tail : List UInt8} {value : α} {result : β}
    (h : decoder.Takes lead value) (hn : (next value).Takes tail result) :
    (decoder >>= next).Takes (lead ++ tail) result := by
  intro rest offset
  rw [List.append_assoc, h.run_bind, hn, List.length_append, Nat.add_assoc]

end Takes

theorem take_accepts (n : Nat) : (take n).Accepts fun bytes value => bytes.length = n ∧ value = bytes := by
  rintro ⟨rest, offset⟩ value ⟨rest', offset'⟩
  simp only [take]
  split
  next hlength =>
    constructor
    · intro h
      cases h
      exact ⟨rest.take n, ⟨hlength, rfl⟩, (List.take_append_drop n rest).symm, by rw [hlength]⟩
    · rintro ⟨bytes, ⟨hl, rfl⟩, hr, ho⟩
      subst hl
      have hr : rest = value ++ rest' := hr
      subst hr
      simp_all
  next hlength =>
    constructor
    · intro h
      cases h
    · rintro ⟨bytes, ⟨hl, rfl⟩, hr, _⟩
      have hr : rest = value ++ rest' := hr
      subst hr
      exact absurd (by simp [hl]) hlength

theorem skip_accepts (n : Nat) : (skip n).Accepts fun bytes _ => bytes.length = n := by
  refine ((take_accepts n).bind_pure fun _ => ()).congr fun bytes value => ?_
  constructor
  · rintro ⟨_, ⟨hl, _⟩, _⟩
    exact hl
  · exact fun hl => ⟨bytes, ⟨hl, rfl⟩, rfl⟩

theorem unsigned_accepts (n : Nat) :
    (unsigned n).Accepts fun bytes value => value < 256 ^ n ∧ bytes = numeral n value := by
  refine ((take_accepts n).bind_pure bigEndian).congr fun bytes value => ?_
  constructor
  · rintro ⟨_, ⟨rfl, rfl⟩, rfl⟩
    exact ⟨bigEndian_lt _, (numeral_bigEndian _).symm⟩
  · rintro ⟨hv, rfl⟩
    exact ⟨_, ⟨length_numeral n value, rfl⟩, (bigEndian_numeral hv).symm⟩

theorem u16_accepts : u16.Accepts (Coded (fun stored : UInt16 => numeral 2 stored.toNat)
    fun stored value => value = stored.toNat) := by
  refine (unsigned_accepts 2).congr fun bytes value => ?_
  constructor
  · rintro ⟨hv, rfl⟩
    have hn : (UInt16.ofNat value).toNat = value := UInt16.toNat_ofNat_of_lt' hv
    exact ⟨UInt16.ofNat value, congrArg (numeral 2) hn.symm, hn.symm⟩
  · rintro ⟨stored, rfl, rfl⟩
    exact ⟨stored.toNat_lt, rfl⟩

theorem repeated_accepts {item : Decoder α} {encode : γ → List UInt8} {means : γ → α → Prop}
    (h : item.Accepts (Coded encode means)) (n : Nat) :
    (repeated item n).Accepts (Coded (·.flatMap encode)
      fun stored values => stored.length = n ∧ List.Forall₂ means stored values) := by
  induction n with
  | zero =>
    refine (Accepts.pure []).congr fun bytes values => ?_
    constructor
    · rintro ⟨rfl, rfl⟩
      exact ⟨[], rfl, rfl, .nil⟩
    · rintro ⟨stored, rfl, hl, hm⟩
      cases List.eq_nil_of_length_eq_zero hl
      cases hm
      exact ⟨rfl, rfl⟩
  | succ n ih =>
    refine (h.bind fun value => ih.bind_pure (value :: ·)).congr fun bytes values => ?_
    constructor
    · rintro ⟨value, _, _, ⟨first, rfl, hf⟩, ⟨others, ⟨rest, rfl, hl, hm⟩, rfl⟩, rfl⟩
      exact ⟨first :: rest, rfl, by rw [List.length_cons, hl], .cons hf hm⟩
    · rintro ⟨stored, rfl, hl, hm⟩
      obtain ⟨first, rest, rfl⟩ := List.exists_cons_of_length_eq_add_one hl
      cases hm with
      | @cons _ value _ others hf hm =>
        exact ⟨value, _, _, ⟨first, rfl, hf⟩, ⟨others, ⟨rest, rfl, Nat.succ.inj hl, hm⟩, rfl⟩, rfl⟩

/-- The bytes of a list behind the number of its elements. -/
def encodeList (encode : γ → List UInt8) (stored : List γ) : List UInt8 :=
  numeral 2 stored.length ++ stored.flatMap encode

theorem counted_accepts {item : Decoder α} {encode : γ → List UInt8} {means : γ → α → Prop}
    (h : item.Accepts (Coded encode means)) :
    (counted item).Accepts (Coded (encodeList encode)
      fun stored values => stored.length < 2 ^ 16 ∧ List.Forall₂ means stored values) := by
  refine ((unsigned_accepts 2).bind fun n => repeated_accepts h n).congr fun bytes values => ?_
  constructor
  · rintro ⟨n, _, _, ⟨hn, rfl⟩, ⟨stored, rfl, rfl, hm⟩, rfl⟩
    exact ⟨stored, rfl, hn, hm⟩
  · rintro ⟨stored, rfl, hl, hm⟩
    exact ⟨stored.length, _, _, ⟨hl, rfl⟩, ⟨stored, rfl, rfl, hm⟩, rfl⟩

end Decoder

end SerialManifest.ClassFile
