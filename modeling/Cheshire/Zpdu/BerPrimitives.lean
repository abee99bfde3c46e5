import Cheshire.Fault

/-!
# Buffers and headers of BER values

An `int` of the code is a `BitVec 32`.  A value is written into a growing buffer behind its tag and
its length, and read from the place of the cursor.
-/

namespace Cheshire.Zpdu

/-- A `DBUF`; `size` is the number of its octets. -/
structure Dbuf where
  data : List UInt8
  cursor : ℕ
deriving DecidableEq

/-- `NewDbuf` -/
def Dbuf.new : Dbuf := ⟨[], 0⟩

/-- `db_put` of octets that exist: the buffer grows as needed. -/
def Dbuf.put (dbuf : Dbuf) (octets : List UInt8) : Dbuf := { dbuf with data := dbuf.data ++ octets }

@[simp] theorem Dbuf.put_nil (dbuf : Dbuf) : dbuf.put [] = dbuf := by
  rw [Dbuf.put, List.append_nil]

theorem Dbuf.put_append (dbuf : Dbuf) (first second : List UInt8) :
    dbuf.put (first ++ second) = (dbuf.put first).put second := by
  simp only [Dbuf.put, List.append_assoc]

/-- `db_get(dbuf, &ch, 1)`: at the end of the buffer `ch` stays as it is. -/
def Dbuf.get (dbuf : Dbuf) (ch : Option UInt8) : Option UInt8 × Dbuf :=
  match dbuf.data[dbuf.cursor]? with
  | some octet => (some octet, { dbuf with cursor := dbuf.cursor + 1 })
  | none => (ch, dbuf)

theorem get_of_cons_prefix {dbuf : Dbuf} {octet : UInt8} {content : List UInt8} (ch : Option UInt8)
    (h : octet :: content <+: dbuf.data.drop dbuf.cursor) :
    dbuf.get ch = (some octet, { dbuf with cursor := dbuf.cursor + 1 }) ∧
      content <+: dbuf.data.drop (dbuf.cursor + 1) := by
  obtain ⟨rest, hrest⟩ := h
  have hhead : dbuf.data[dbuf.cursor]? = some octet := by
    rw [← List.head?_drop, ← hrest]
    rfl
  refine ⟨by rw [Dbuf.get, hhead], rest, ?_⟩
  rw [← List.tail_drop, ← hrest]
  rfl

/-- The fields of an `ASN_NODE` that decoders of primitive values read. -/
structure AsnNode where
  dbuf : Dbuf
  length : ℤ

inductive TagClass where
  | UNIVERSAL
  | APPLICATION
  | BER_CONTEXT
  | PRIVATE
deriving DecidableEq

def TagClass.code : TagClass → ℕ
  | UNIVERSAL => 0
  | APPLICATION => 1
  | BER_CONTEXT => 2
  | PRIVATE => 3

inductive TagForm where
  | PRIMITIVE
  | CONSTRUCTED
deriving DecidableEq

def TagForm.code : TagForm → ℕ
  | PRIMITIVE => 0
  | CONSTRUCTED => 1

inductive ZStatus where
  | Z_OK
  | Z_ERROR
deriving DecidableEq

/-- The loop that cuts an `int` into groups of bits, the lowest one first, and stores them in a block
of `room` octets.  The shift keeps the sign, so a negative `int` fills the block. -/
def cutGroups (bits : ℕ) : ℕ → BitVec 32 → Exec (List UInt8)
  | room, component =>
    if component = 0 then .ok []
    else
      match room with
      | 0 => .error .outOfBounds
      | room + 1 => do
        let rest ← cutGroups bits room (component.sshiftRight bits)
        return UInt8.ofBitVec ((component &&& BitVec.ofNat 32 (2 ^ bits - 1)).setWidth 8) :: rest

/-- Groups of seven bits, the highest one first; every one but the last is marked. -/
def markGroups (groups : List UInt8) : List UInt8 :=
  (groups.tail.map (· ||| 0x80)).reverse ++ groups.take 1

def putLen (dbuf : Dbuf) (length : BitVec 32) : Exec (ZStatus × Dbuf) :=
  if length.toInt < 0 then .ok (.Z_ERROR, dbuf)
  else if length.toInt < 128 then .ok (.Z_OK, dbuf.put [UInt8.ofBitVec ((length &&& 0x7F).setWidth 8)])
  else do
    let data ← cutGroups 8 6 length
    return (.Z_OK, dbuf.put ((UInt8.ofNat data.length ||| 0x80) :: data.reverse))

def putTag (dbuf : Dbuf) (cls : TagClass) (form : TagForm) (tagno : BitVec 32) :
    Exec (ZStatus × Dbuf) :=
  if tagno.toInt < 0 then .ok (.Z_ERROR, dbuf)
  else if tagno.toInt < 31 then
    .ok (.Z_OK, dbuf.put [UInt8.ofNat (cls.code <<< 6 ||| form.code <<< 5 ||| tagno.toNat &&& 0x1F)])
  else do
    let data ← cutGroups 7 20 tagno
    return (.Z_OK, dbuf.put (UInt8.ofNat (cls.code <<< 6 ||| form.code <<< 5 ||| 0x1F) ::
      markGroups data))

theorem toNat_group {bits : ℕ} (hbits : bits ≤ 8) (component : BitVec 32) :
    (UInt8.ofBitVec ((component &&& BitVec.ofNat 32 (2 ^ bits - 1)).setWidth 8)).toNat =
      component.toNat % 2 ^ bits := by
  have hle : 2 ^ bits ≤ 2 ^ 8 := Nat.pow_le_pow_right (by decide) hbits
  have hpos : 0 < 2 ^ bits := Nat.two_pow_pos bits
  have hmod : component.toNat % 2 ^ bits < 2 ^ bits := Nat.mod_lt _ hpos
  rw [UInt8.toNat_ofBitVec, BitVec.toNat_setWidth, BitVec.toNat_and, BitVec.toNat_ofNat,
    Nat.mod_eq_of_lt (show 2 ^ bits - 1 < 2 ^ 32 by omega), Nat.and_two_pow_sub_one_eq_mod]
  exact Nat.mod_eq_of_lt (by omega)

variable {component : BitVec 32}

theorem toNat_sshiftRight (h : component.msb = false) (bits : ℕ) :
    (component.sshiftRight bits).toNat = component.toNat / 2 ^ bits := by
  rw [BitVec.sshiftRight_eq_of_msb_false h, BitVec.toNat_ushiftRight, Nat.shiftRight_eq_div_pow]

theorem msb_sshiftRight (h : component.msb = false) (bits : ℕ) :
    (component.sshiftRight bits).msb = false := by
  rw [BitVec.msb_sshiftRight, h]

theorem cutGroups_of_lt {bits : ℕ} (hpos : 0 < bits) (hbits : bits ≤ 8) {room : ℕ}
    (hmsb : component.msb = false) (hroom : component.toNat < 2 ^ (bits * room)) :
    ∃ groups, cutGroups bits room component = .ok groups ∧
      groups.map UInt8.toNat = Nat.digits (2 ^ bits) component.toNat := by
  induction room generalizing component with
  | zero =>
    have hzero : component = 0 := BitVec.eq_of_toNat_eq (by simpa using hroom)
    refine ⟨[], by rw [cutGroups, if_pos hzero], ?_⟩
    rw [hzero]
    simp
  | succ room ih =>
    by_cases hzero : component = 0
    · refine ⟨[], by rw [cutGroups, if_pos hzero], ?_⟩
      rw [hzero]
      simp
    · have hrest : (component.sshiftRight bits).toNat < 2 ^ (bits * room) := by
        rw [toNat_sshiftRight hmsb, Nat.div_lt_iff_lt_mul (Nat.two_pow_pos bits), ← pow_add]
        exact hroom
      obtain ⟨groups, hrun, hgroups⟩ := ih (msb_sshiftRight hmsb bits) hrest
      refine ⟨_ :: groups, by rw [cutGroups, if_neg hzero, hrun]; rfl, ?_⟩
      have hne : component.toNat ≠ 0 := fun h ↦ hzero (BitVec.eq_of_toNat_eq (by simpa using h))
      have hbase : 1 < 2 ^ bits := Nat.one_lt_two_pow hpos.ne'
      rw [List.map_cons, hgroups, toNat_group hbits, toNat_sshiftRight hmsb,
        Nat.digits_def' hbase (Nat.pos_of_ne_zero hne)]

theorem toNat_lt_of_msb_false (h : component.msb = false) : component.toNat < 2 ^ 31 := by
  rw [BitVec.msb_eq_decide, decide_eq_false_iff_not] at h
  exact not_le.mp h

theorem cutGroups_ok {bits room : ℕ} (hpos : 0 < bits) (hbits : bits ≤ 8) (hroom : 31 ≤ bits * room)
    {component : BitVec 32} (hmsb : component.msb = false) :
    ∃ groups, cutGroups bits room component = .ok groups ∧
      groups.map UInt8.toNat = Nat.digits (2 ^ bits) component.toNat :=
  cutGroups_of_lt hpos hbits hmsb
    ((toNat_lt_of_msb_false hmsb).trans_le (Nat.pow_le_pow_right (by decide) hroom))

theorem cutGroups_of_msb {bits room : ℕ} (hmsb : component.msb = true) :
    cutGroups bits room component = .error .outOfBounds := by
  have hne {component : BitVec 32} (h : component.msb = true) : component ≠ 0 := by
    rintro rfl
    cases h
  induction room generalizing component with
  | zero => rw [cutGroups, if_neg (hne hmsb)]
  | succ room ih =>
    have hshift : (component.sshiftRight bits).msb = true := by rw [BitVec.msb_sshiftRight, hmsb]
    rw [cutGroups, if_neg (hne hmsb), ih hshift]
    rfl

variable {length : BitVec 32}

theorem msb_of_nonneg (h : ¬length.toInt < 0) : length.msb = false := by
  rw [← Bool.not_eq_true, BitVec.msb_eq_toInt, decide_eq_true_iff]
  exact h

theorem toInt_of_msb_false (h : length.msb = false) : length.toInt = length.toNat := by
  rw [BitVec.toInt_eq_msb_cond, h]
  rfl

theorem putLen_of_msb_false (dbuf : Dbuf) (hmsb : length.msb = false) :
    ∃ octets, putLen dbuf length = .ok (.Z_OK, dbuf.put octets) := by
  have hnonneg : ¬length.toInt < 0 := by
    rw [toInt_of_msb_false hmsb]
    exact not_lt.mpr (Int.natCast_nonneg _)
  rw [putLen, if_neg hnonneg]
  split_ifs with hshort
  · exact ⟨_, rfl⟩
  · obtain ⟨data, hdata, -⟩ := @cutGroups_ok 8 6 (by decide) le_rfl (by decide) _ hmsb
    exact ⟨_, by rw [hdata]; rfl⟩

theorem putTag_of_nonneg (dbuf : Dbuf) (cls : TagClass) (form : TagForm) {tagno : BitVec 32}
    (hnonneg : 0 ≤ tagno.toInt) :
    ∃ octets, putTag dbuf cls form tagno = .ok (.Z_OK, dbuf.put octets) := by
  have hmsb := msb_of_nonneg (not_lt.mpr hnonneg)
  rw [putTag, if_neg (not_lt.mpr hnonneg)]
  split_ifs with hshort
  · exact ⟨_, rfl⟩
  · obtain ⟨data, hdata, -⟩ := @cutGroups_ok 7 20 (by decide) (by decide) (by decide) _ hmsb
    exact ⟨_, by rw [hdata]; rfl⟩

theorem putLen_ok (dbuf : Dbuf) (length : BitVec 32) :
    ∃ status octets, putLen dbuf length = .ok (status, dbuf.put octets) := by
  by_cases hneg : length.toInt < 0
  · exact ⟨.Z_ERROR, [], by rw [putLen, if_pos hneg, Dbuf.put_nil]⟩
  · exact ⟨.Z_OK, putLen_of_msb_false dbuf (msb_of_nonneg hneg)⟩

theorem putTag_ok (dbuf : Dbuf) (cls : TagClass) (form : TagForm) (tagno : BitVec 32) :
    ∃ status octets, putTag dbuf cls form tagno = .ok (status, dbuf.put octets) := by
  by_cases hneg : tagno.toInt < 0
  · exact ⟨.Z_ERROR, [], by rw [putTag, if_pos hneg, Dbuf.put_nil]⟩
  · exact ⟨.Z_OK, putTag_of_nonneg dbuf cls form (not_lt.mp hneg)⟩

end Cheshire.Zpdu
