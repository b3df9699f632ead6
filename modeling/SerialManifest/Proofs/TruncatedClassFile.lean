import SerialManifest.Proofs.ClassFileLanguage
import SerialManifest.Proofs.ClasspathHierarchy

namespace SerialManifest.ClassFile

variable {α β : Type}

namespace Cursor

def followedBy (cursor : Cursor) (more : List UInt8) : Cursor :=
  ⟨cursor.rest ++ more, cursor.offset⟩

/-- The place behind the last byte. -/
def finish (cursor : Cursor) : Nat :=
  cursor.offset + cursor.rest.length

@[simp] theorem followedBy_nil (cursor : Cursor) : cursor.followedBy [] = cursor := by
  simp [followedBy]

end Cursor

namespace Decoder

/-- How a decoder ends. It runs out of bytes at a place among them, it fails for another reason, or it takes
some of them; and in the last two cases it does so whatever follows. -/
inductive Ends (decoder : Decoder α) (cursor : Cursor) : Prop where
  | ranOut (place : Nat) (h : decoder cursor = .error (.truncated place)) (among : place ≤ cursor.finish)
  | failed (error : FormatError) (h : ∀ more, decoder (cursor.followedBy more) = .error error)
      (other : ∀ place, error ≠ .truncated place)
  | took (value : α) (later : Cursor)
      (h : ∀ more, decoder (cursor.followedBy more) = .ok (value, later.followedBy more))
      (same : later.finish = cursor.finish)

/-- The decoder looks at no byte beyond those that it takes. -/
def Steady (decoder : Decoder α) : Prop :=
  ∀ cursor, decoder.Ends cursor

namespace Steady

variable {decoder : Decoder α}

theorem pure (value : α) : Steady (Pure.pure value) :=
  fun cursor => .took value cursor (fun _ => rfl) rfl

theorem throw {error : FormatError} (other : ∀ place, error ≠ .truncated place) :
    Steady (throw error : Decoder α) :=
  fun _ => .failed error (fun _ => rfl) other

theorem lift {outcome : Except FormatError α} (other : ∀ place, outcome ≠ .error (.truncated place)) :
    Steady (liftM outcome) := by
  cases outcome with
  | error error => exact throw fun place he => other place (congrArg _ he)
  | ok value => exact pure value

theorem bind {next : α → Decoder β} (h : Steady decoder) (hn : ∀ value, Steady (next value)) :
    Steady (decoder >>= next) := by
  intro cursor
  cases h cursor with
  | ranOut place hfirst among =>
    refine .ranOut place ?_ among
    rw [run_bind, hfirst]
    rfl
  | failed error hfirst other =>
    refine .failed error (fun more => ?_) other
    rw [run_bind, hfirst]
    rfl
  | took value middle hfirst same =>
    have hrest : ∀ more, (decoder >>= next) (cursor.followedBy more) = next value (middle.followedBy more) := by
      intro more
      rw [run_bind, hfirst]
      rfl
    cases hn value middle with
    | ranOut place hsecond among =>
      refine .ranOut place ?_ (same ▸ among)
      rw [← cursor.followedBy_nil, hrest, Cursor.followedBy_nil, hsecond]
    | failed error hsecond other => exact .failed error (fun more => by rw [hrest, hsecond]) other
    | took result later hsecond same' =>
      exact .took result later (fun more => by rw [hrest, hsecond]) (same'.trans same)

end Steady

theorem steady_take (n : Nat) : Steady (take n) := by
  intro cursor
  by_cases hn : cursor.rest.length < n
  · exact .ranOut cursor.offset (take_eq_error hn) (Nat.le_add_right _ _)
  · have hlength : (cursor.rest.take n).length = n := by
      rw [List.length_take]
      omega
    refine .took (cursor.rest.take n) ⟨cursor.rest.drop n, cursor.offset + n⟩ (fun more => ?_) ?_
    · have hrun := take_of_append (cursor.rest.take n) (cursor.rest.drop n ++ more) cursor.offset
      rwa [hlength, ← List.append_assoc, List.take_append_drop] at hrun
    · simp only [Cursor.finish, List.length_drop]
      omega

theorem steady_skip (n : Nat) : Steady (skip n) :=
  (steady_take n).bind fun _ => .pure ()

theorem steady_unsigned (n : Nat) : Steady (unsigned n) :=
  (steady_take n).bind fun _ => .pure _

theorem steady_u16 : Steady u16 :=
  steady_unsigned 2

theorem Steady.repeated {item : Decoder α} (h : Steady item) (n : Nat) : Steady (Decoder.repeated item n) := by
  induction n with
  | zero => exact .pure []
  | succ n ih => exact h.bind fun _ => ih.bind fun _ => .pure _

theorem Steady.counted {item : Decoder α} (h : Steady item) : Steady (Decoder.counted item) :=
  steady_u16.bind h.repeated

end Decoder

open Decoder (Steady steady_take steady_skip steady_unsigned steady_u16)

theorem ConstantPool.text_ne_truncated (pool : ConstantPool) (index place : Nat) :
    pool.text index ≠ .error (.truncated place) := by
  unfold ConstantPool.text
  split <;> nofun

theorem ConstantPool.className_ne_truncated (pool : ConstantPool) (index place : Nat) :
    pool.className index ≠ .error (.truncated place) := by
  unfold ConstantPool.className
  split
  next nameIndex _ =>
    have hne := pool.text_ne_truncated nameIndex
    intro he
    cases ht : pool.text nameIndex with
    | ok name =>
      rw [ht] at he
      cases he
    | error error =>
      rw [ht] at he
      cases he
      exact hne place ht
  next => nofun

theorem steady_text (pool : ConstantPool) (index : Nat) : Steady (liftM (pool.text index)) :=
  .lift (pool.text_ne_truncated index)

theorem steady_className (pool : ConstantPool) (index : Nat) : Steady (liftM (pool.className index)) :=
  .lift (pool.className_ne_truncated index)

theorem steady_constant (index : Nat) : Steady (constant index) := by
  refine (steady_unsigned 1).bind fun tag => ?_
  cases Layout.ofTag? tag with
  | none => exact .throw nofun
  | some layout =>
    cases layout with
    | text => exact steady_u16.bind fun length => (steady_take length).bind fun _ => .pure _
    | classRef => exact steady_u16.bind fun _ => .pure _
    | plain size => exact (steady_skip size).bind fun _ => .pure _
    | wide size => exact (steady_skip size).bind fun _ => .pure _

theorem steady_constants (index wanted : Nat) : Steady (constants index wanted) := by
  induction index, wanted using constants.induct with
  | case1 index =>
    rw [constants]
    exact .pure []
  | case2 index wanted ihWide ihPlain =>
    rw [constants]
    refine (steady_constant index).bind fun found => ?_
    obtain ⟨first, wide⟩ := found
    cases wide with
    | true => exact ihWide.bind fun _ => .pure _
    | false => exact ihPlain.bind fun _ => .pure _

theorem steady_pool : Steady ConstantPool.decoder :=
  steady_u16.bind fun count => (steady_constants 1 (count - 1)).bind fun _ => .pure _

theorem steady_skipAttributes : Steady skipAttributes :=
  have hone : Steady skipAttribute :=
    (steady_skip 2).bind fun _ => (steady_unsigned 4).bind steady_skip
  hone.counted.bind fun _ => .pure ()

theorem steady_accessFlags : Steady accessFlags :=
  steady_u16.bind fun _ => .pure _

section Pool

variable (pool : ConstantPool)

theorem steady_field : Steady (fieldDecoder pool) :=
  steady_accessFlags.bind fun _ => steady_u16.bind fun slot => (steady_text pool slot).bind fun _ =>
    steady_u16.bind fun slot => (steady_text pool slot).bind fun _ =>
      steady_skipAttributes.bind fun _ => .pure _

theorem steady_skipMethod : Steady skipMethod :=
  (steady_skip 6).bind fun _ => steady_skipAttributes

theorem steady_superclass : Steady (superclass pool) := by
  refine steady_u16.bind fun index => ?_
  split
  · exact .pure none
  · exact (steady_className pool index).bind fun _ => .pure _

theorem steady_interface : Steady (do pool.className (← Decoder.u16)) :=
  steady_u16.bind (steady_className pool)

theorem steady_nestingEntry (name : String) : Steady (nestingEntry pool name) := by
  refine steady_u16.bind fun inner => (steady_skip 2).bind fun _ => steady_u16.bind fun simple =>
    (steady_skip 2).bind fun _ => (steady_className pool inner).bind fun found => ?_
  split
  · split
    · exact .pure _
    · exact (steady_text pool simple).bind fun _ => .pure _
  · exact .pure none

theorem steady_classAttribute (name : String) : Steady (classAttribute pool name) := by
  refine steady_u16.bind fun slot => (steady_text pool slot).bind fun label =>
    (steady_unsigned 4).bind fun length => ?_
  split
  · exact (steady_nestingEntry pool name).counted.bind fun _ => .pure _
  · exact (steady_skip length).bind fun _ => .pure []

end Pool

theorem steady_decoder : Steady decoder := by
  refine (steady_unsigned 4).bind fun found => ?_
  by_cases hfound : found = magic
  · rw [if_neg (not_not.2 hfound)]
    refine (steady_skip 4).bind fun _ => steady_pool.bind fun pool => steady_accessFlags.bind fun _ =>
      steady_u16.bind fun this => (steady_className pool this).bind fun name => ?_
    refine (steady_superclass pool).bind fun _ => (steady_interface pool).counted.bind fun _ =>
      (steady_field pool).counted.bind fun _ => steady_skipMethod.counted.bind fun _ => ?_
    exact (steady_classAttribute pool name).counted.bind fun _ => .pure _
  · rw [if_pos hfound]
    exact .throw nofun

def taken (bytes : List UInt8) : Except FormatError Nat :=
  (decoder.run ⟨bytes, 0⟩).map (·.2.offset)

theorem parse_eq (bytes : List UInt8) : parse bytes = (decoder ⟨bytes, 0⟩).map (·.1) :=
  rfl

theorem taken_eq (bytes : List UInt8) : taken bytes = (decoder ⟨bytes, 0⟩).map (·.2.offset) :=
  rfl

theorem parse_append {bytes : List UInt8} (h : ∀ place, parse bytes ≠ .error (.truncated place))
    (more : List UInt8) : parse (bytes ++ more) = parse bytes := by
  cases steady_decoder ⟨bytes, 0⟩ with
  | ranOut place hrun _ =>
    refine absurd ?_ (h place)
    rw [parse_eq, hrun]
    rfl
  | failed error hrun _ =>
    have hmore := hrun more
    have hnone := hrun []
    rw [Cursor.followedBy_nil] at hnone
    rw [Cursor.followedBy] at hmore
    rw [parse_eq, parse_eq, hnone, hmore]
  | took file later hrun _ =>
    have hmore := hrun more
    have hnone := hrun []
    rw [Cursor.followedBy_nil] at hnone
    rw [Cursor.followedBy] at hmore
    rw [parse_eq, parse_eq, hnone, hmore]
    rfl

/-- A class file of which some bytes are cut off is found to lack bytes, for if it ended in any other way, it
would do so with these bytes as well, and leave them over. -/
theorem truncated_of_cut {bytes : List UInt8} {file : ClassFile} {later : Cursor}
    (h : decoder ⟨bytes, 0⟩ = .ok (file, later)) {k : Nat} (hk : k + later.rest.length < bytes.length) :
    ∃ place ≤ k, parse (bytes.take k) = .error (.truncated place) := by
  have hwhole : Cursor.followedBy ⟨bytes.take k, 0⟩ (bytes.drop k) = ⟨bytes, 0⟩ := by
    simp [Cursor.followedBy]
  cases steady_decoder ⟨bytes.take k, 0⟩ with
  | ranOut place hrun among =>
    have hfinish : Cursor.finish ⟨bytes.take k, 0⟩ ≤ k := by
      simp only [Cursor.finish, List.length_take]
      omega
    refine ⟨place, Nat.le_trans among hfinish, ?_⟩
    rw [parse_eq, hrun]
    rfl
  | failed error hrun _ =>
    have hall := hrun (bytes.drop k)
    rw [hwhole, h] at hall
    cases hall
  | took other middle hrun _ =>
    -- the rest of the bytes would be left over
    have hall := hrun (bytes.drop k)
    rw [hwhole, h] at hall
    cases hall
    simp only [Cursor.followedBy, List.length_append, List.length_drop] at hk
    omega

/-- What the parser comes to is settled by the bytes that it takes. Whatever it says but that bytes are
missing, it says the same when more bytes follow. A class file that it accepts begins with a shortest one that
it accepts, and if that is cut short anywhere, the parser says that bytes are missing. -/
theorem parse_settled_by_front (bytes : List UInt8) :
    ((∀ place, parse bytes ≠ .error (.truncated place)) →
      ∀ more, parse (bytes ++ more) = parse bytes) ∧
    ∀ file, parse bytes = .ok file → ∃ count ≤ bytes.length, taken bytes = .ok count ∧
      parse (bytes.take count) = .ok file ∧
      ∀ k < count, ∃ place ≤ k, parse (bytes.take k) = .error (.truncated place) := by
  refine ⟨parse_append, fun file hparse => ?_⟩
  obtain ⟨⟨_, later⟩, hrun, rfl⟩ := Except.map_eq_ok_iff.1 hparse
  have hrun : decoder ⟨bytes, 0⟩ = .ok (_, later) := hrun
  obtain ⟨lead, hlead, hbytes, hoffset⟩ := (decoder_accepts _ _ _).1 hrun
  have hbytes : bytes = lead ++ later.rest := hbytes
  subst hbytes
  have halone := decoder_accepts.takes hlead [] 0
  rw [List.append_nil] at halone
  refine ⟨lead.length, ?_, ?_, ?_, fun k hk => ?_⟩
  · simp
  · rw [taken_eq, hrun, ← Nat.zero_add lead.length]
    exact congrArg Except.ok hoffset
  · rw [List.take_left, parse_eq, halone]
    rfl
  · refine truncated_of_cut hrun ?_
    simpa using hk

/-- A class file that is cut within its members, and one that is followed by a byte. -/
theorem parse_of_cutFile :
    let bytes := plainBytes "A" "B" []
    (parse bytes).toOption.isSome = true ∧ parse (bytes ++ [0]) = parse bytes ∧
      ∃ place ≤ 30, parse (bytes.take 30) = .error (.truncated place) := by
  intro bytes
  have hsome : (parse bytes).toOption.isSome = true := by decide +kernel
  obtain ⟨file, hparse⟩ := Except.isSome_toOption_iff.1 hsome
  have hlength : (taken bytes).toOption = some 38 := by decide +kernel
  obtain ⟨hmore, hcut⟩ := parse_settled_by_front bytes
  obtain ⟨count, _, htaken, _, htruncated⟩ := hcut file hparse
  have hcount : count = 38 := by
    rw [htaken] at hlength
    exact Option.some.inj hlength
  refine ⟨hsome, hmore (fun place he => ?_) [0], htruncated 30 (by omega)⟩
  rw [hparse] at he
  cases he

end SerialManifest.ClassFile
