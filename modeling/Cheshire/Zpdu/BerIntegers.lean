import Cheshire.Lib.Radix
import Cheshire.Zpdu.BerPrimitives

/-!
# Integers in BER

The encoder leaves out octets that only repeat the sign.  The decoder starts from 0 whatever the sign
of the first octet is, so it gives back a negative number only where all four octets are there.
-/

namespace Cheshire.Zpdu

open Lib.Radix

/-- The nine bits that the encoder compares with the sign, at the place `t`. -/
def paddingAt (val : BitVec 32) (t : ℕ) : BitVec 32 :=
  (val &&& ((0xFF80 : BitVec 32) <<< (t * 8))) >>> (t * 8)

/-- The loop that skips redundant padding.  The argument and the result are `t + 1`, so the end of the
loop is 0. -/
def skipPadding (val key : BitVec 32) : ℕ → ℕ
  | 0 => 0
  | t + 1 => if paddingAt val t ≠ key then t + 1 else skipPadding val key t

def octetAt (val : BitVec 32) (t : ℕ) : UInt8 :=
  UInt8.ofBitVec (((val &&& ((0xFF : BitVec 32) <<< (t * 8))) >>> (t * 8)).setWidth 8)

/-- The octets at the places below `count`, the highest one first. -/
def octets (val : BitVec 32) : ℕ → List UInt8
  | 0 => []
  | t + 1 => octetAt val t :: octets val t

/-- The nine bits of padding. -/
def signKey (val : BitVec 32) : BitVec 32 := if val.toInt ≥ 0 then 0 else 0xFF80

/-- How many octets of a number are written. -/
def integerSize (obj : BitVec 32) : ℕ := skipPadding obj (signKey obj) 3 + 1

/-- The tag and the length that stand before a number; it does not matter whether they are accepted. -/
def integerHeader (dbuf : Dbuf) (cls : TagClass) (tagno obj : BitVec 32) : Exec Dbuf := do
  let tagged ← putTag dbuf cls .PRIMITIVE tagno
  let header ← putLen tagged.2 (BitVec.ofNat 32 (integerSize obj))
  return header.2

def encodeInteger (dbuf : Dbuf) (cls : TagClass) (tagno obj : BitVec 32) : Exec (ZStatus × Dbuf) := do
  let header ← integerHeader dbuf cls tagno obj
  return (.Z_OK, header.put (octets obj (integerSize obj)))

/-- The loop of `DecodeInteger`.  What `ch` holds before the first octet is read is not defined. -/
def readInteger : ℕ → Dbuf → Option UInt8 → BitVec 32 → Exec (BitVec 32)
  | 0, _, _, intVal => .ok intVal
  | count + 1, dbuf, ch, intVal =>
    match dbuf.get ch with
    | (none, _) => .error .uninitialized
    | (some octet, dbuf) =>
      readInteger count dbuf (some octet) ((intVal <<< 8) + octet.toBitVec.setWidth 32)

def decodeInteger (node : AsnNode) : Exec (BitVec 32) :=
  readInteger node.length.toNat node.dbuf none 0

theorem toNat_maskAt (val mask : BitVec 32) {s : ℕ} (h : mask.toNat * 2 ^ s < 2 ^ 32) :
    ((val &&& (mask <<< s)) >>> s).toNat = val.toNat / 2 ^ s &&& mask.toNat := by
  rw [BitVec.toNat_ushiftRight, BitVec.toNat_and, BitVec.toNat_shiftLeft, Nat.shiftLeft_eq,
    Nat.mod_eq_of_lt h, Nat.shiftRight_and_distrib, Nat.shiftRight_eq_div_pow,
    Nat.shiftRight_eq_div_pow, Nat.mul_div_cancel _ (Nat.two_pow_pos s)]

theorem and_padding (place : ℕ) : place &&& 0xFF80 = place / 128 % 512 * 128 := by
  have hmask : 0xFF80 = (2 ^ 9 - 1) <<< 7 := rfl
  have hshift : place &&& (2 ^ 9 - 1) <<< 7 = (place >>> 7 &&& (2 ^ 9 - 1)) <<< 7 := by
    apply Nat.eq_of_testBit_eq
    intro i
    simp only [Nat.testBit_and, Nat.testBit_shiftLeft, Nat.testBit_shiftRight]
    by_cases hi : 7 ≤ i
    · simp [hi]
    · simp [hi]
  rw [hmask, hshift, Nat.and_two_pow_sub_one_eq_mod, Nat.shiftLeft_eq, Nat.shiftRight_eq_div_pow]

variable {t : ℕ}

theorem toNat_paddingAt (val : BitVec 32) (ht : t < 3) :
    (paddingAt val t).toNat = val.toNat / 2 ^ (t * 8) / 128 % 512 * 128 := by
  have hmask : (0xFF80 : BitVec 32).toNat * 2 ^ (t * 8) < 2 ^ 32 := by
    have hle : 2 ^ (t * 8) ≤ 2 ^ 16 := Nat.pow_le_pow_right (by decide) (by omega)
    calc
      (0xFF80 : BitVec 32).toNat * 2 ^ (t * 8) ≤ 0xFF80 * 2 ^ 16 := Nat.mul_le_mul_left _ hle
      _ < 2 ^ 32 := by decide
  rw [paddingAt, toNat_maskAt val _ hmask]
  exact and_padding _

theorem toNat_octetAt (val : BitVec 32) (ht : t < 4) :
    (octetAt val t).toNat = val.toNat / 256 ^ t % 256 := by
  have hmask : (0xFF : BitVec 32).toNat * 2 ^ (t * 8) < 2 ^ 32 := by
    have hle : 2 ^ (t * 8) ≤ 2 ^ 24 := Nat.pow_le_pow_right (by decide) (by omega)
    calc
      (0xFF : BitVec 32).toNat * 2 ^ (t * 8) ≤ 0xFF * 2 ^ 24 := Nat.mul_le_mul_left _ hle
      _ < 2 ^ 32 := by decide
  have hand (place : ℕ) : place &&& (0xFF : BitVec 32).toNat = place % 256 :=
    Nat.and_two_pow_sub_one_eq_mod place 8
  rw [octetAt, UInt8.toNat_ofBitVec, BitVec.toNat_setWidth, toNat_maskAt val _ hmask, hand,
    mul_comm t, pow_mul]
  exact Nat.mod_mod _ _

theorem map_toNat_octets (val : BitVec 32) {count : ℕ} (hcount : count ≤ 4) :
    (octets val count).map UInt8.toNat = lowDigits 256 count val.toNat := by
  induction count with
  | zero => rfl
  | succ t ih =>
    rw [octets, lowDigits, List.map_cons, toNat_octetAt val hcount, ih (Nat.le_of_succ_le hcount)]

/-- The number is one of `count` octets, the highest bit of which is its sign. -/
def FitsIn (count : ℕ) (val : BitVec 32) : Prop :=
  -(2 ^ (8 * count - 1)) ≤ val.toInt ∧ val.toInt < 2 ^ (8 * count - 1)

theorem fitsIn_four (val : BitVec 32) : FitsIn 4 val := ⟨val.le_toInt, val.toInt_lt⟩

variable {val : BitVec 32}

theorem FitsIn.mono {count count' : ℕ} (h : FitsIn count val) (hle : count ≤ count') :
    FitsIn count' val := by
  have hpow : (2 : ℤ) ^ (8 * count - 1) ≤ 2 ^ (8 * count' - 1) :=
    pow_le_pow_right₀ (by decide) (by omega)
  exact ⟨(neg_le_neg hpow).trans h.1, h.2.trans_le hpow⟩

theorem paddingAt_eq_signKey_iff (ht : t < 3) (hfits : FitsIn (t + 2) val) :
    paddingAt val t = signKey val ↔ FitsIn (t + 1) val := by
  have hbits := toNat_paddingAt val ht
  have hint := BitVec.toInt_eq_toNat_cond val
  have hlt := val.isLt
  obtain ⟨hlow, hhigh⟩ := hfits
  have hkey : (signKey val).toNat = if val.toInt ≥ 0 then 0 else 511 * 128 := by
    rw [signKey]
    split_ifs
    · rfl
    · rfl
  rw [← BitVec.toNat_inj, hbits, hkey, FitsIn]
  interval_cases t
  · split_ifs at hint ⊢ <;> omega
  · split_ifs at hint ⊢ <;> omega
  · split_ifs at hint ⊢ <;> omega

theorem skipPadding_spec (ht : t ≤ 3) (hfits : FitsIn (t + 1) val) :
    skipPadding val (signKey val) t ≤ t ∧ FitsIn (skipPadding val (signKey val) t + 1) val ∧
      ∀ count < skipPadding val (signKey val) t, ¬FitsIn (count + 1) val := by
  induction t with
  | zero => exact ⟨le_rfl, hfits, fun count hcount ↦ absurd hcount (Nat.not_lt_zero count)⟩
  | succ t ih =>
    have hstep := paddingAt_eq_signKey_iff (Nat.lt_of_succ_le ht) hfits
    by_cases hpadding : paddingAt val t = signKey val
    · rw [skipPadding, if_neg (not_not.mpr hpadding)]
      obtain ⟨hle, hrest⟩ := ih (Nat.le_of_succ_le ht) (hstep.mp hpadding)
      exact ⟨hle.trans (Nat.le_succ t), hrest⟩
    · rw [skipPadding, if_pos hpadding]
      refine ⟨le_rfl, hfits, fun count hcount hsmall ↦ hpadding (hstep.mpr (hsmall.mono ?_))⟩
      exact hcount

theorem integerSize_le (obj : BitVec 32) : integerSize obj ≤ 4 :=
  Nat.succ_le_succ (skipPadding_spec le_rfl (fitsIn_four obj)).1

theorem fitsIn_integerSize (obj : BitVec 32) : FitsIn (integerSize obj) obj :=
  (skipPadding_spec le_rfl (fitsIn_four obj)).2.1

theorem integerSize_eq_four_iff (obj : BitVec 32) : integerSize obj = 4 ↔ ¬FitsIn 3 obj := by
  constructor
  · intro hsize
    exact (skipPadding_spec le_rfl (fitsIn_four obj)).2.2 2 (by rw [integerSize] at hsize; omega)
  · intro hlarge
    by_contra hsmall
    have hle := integerSize_le obj
    exact hlarge ((fitsIn_integerSize obj).mono (by omega))

/-- The value of octets without a sign. -/
abbrev magnitude (content : List UInt8) : ℕ := value 256 (content.map UInt8.toNat)

theorem magnitude_lt (content : List UInt8) : magnitude content < 256 ^ content.length := by
  have hdigits : ∀ digit ∈ content.map UInt8.toNat, digit < 256 := by
    intro digit hmem
    obtain ⟨octet, -, rfl⟩ := List.mem_map.mp hmem
    exact octet.toNat_lt
  have hlt := value_lt hdigits
  rwa [List.length_map] at hlt

theorem readInteger_step (total : ℕ) (octet : UInt8) :
    (BitVec.ofNat 32 total <<< 8) + octet.toBitVec.setWidth 32 =
      BitVec.ofNat 32 (total * 256 + octet.toNat) := by
  apply BitVec.eq_of_toNat_eq
  have hoctet := octet.toNat_lt
  rw [BitVec.toNat_add, BitVec.toNat_shiftLeft, BitVec.toNat_setWidth, BitVec.toNat_ofNat,
    BitVec.toNat_ofNat, Nat.shiftLeft_eq, UInt8.toNat_toBitVec]
  omega

variable {content : List UInt8}

theorem readInteger_spec {dbuf : Dbuf} (ch : Option UInt8) (total : ℕ)
    (hcontent : content <+: dbuf.data.drop dbuf.cursor) :
    readInteger content.length dbuf ch (BitVec.ofNat 32 total) =
      .ok (BitVec.ofNat 32 (total * 256 ^ content.length + magnitude content)) := by
  induction content generalizing dbuf ch total with
  | nil => simp [readInteger, magnitude]
  | cons octet content ih =>
    obtain ⟨hget, hrest⟩ := get_of_cons_prefix ch hcontent
    have hvalue : total * 256 ^ (octet :: content).length + magnitude (octet :: content) =
        (total * 256 + octet.toNat) * 256 ^ content.length + magnitude content := by
      rw [magnitude, List.map_cons, value_cons, List.length_map, List.length_cons, pow_succ]
      ring
    have hnext := @ih { dbuf with cursor := dbuf.cursor + 1 } (some octet)
      (total * 256 + octet.toNat) hrest
    rw [hvalue, ← hnext, ← readInteger_step, List.length_cons, readInteger, hget]

/-- The node of a value whose octets stand in the buffer from the cursor on. -/
structure HoldsContent (node : AsnNode) (content : List UInt8) : Prop where
  length : node.length = content.length
  octets : content <+: node.dbuf.data.drop node.dbuf.cursor

theorem decodeInteger_spec {node : AsnNode} (h : HoldsContent node content) :
    decodeInteger node = .ok (BitVec.ofNat 32 (magnitude content)) := by
  have hread := readInteger_spec none 0 h.octets
  rw [zero_mul, zero_add] at hread
  rw [decodeInteger, h.length, Int.toNat_natCast]
  exact hread

/-- The node of the octets that `encode_integer` writes behind the header. -/
def integerNode (dbuf : Dbuf) (cls : TagClass) (tagno obj : BitVec 32) : Exec AsnNode := do
  let header ← integerHeader dbuf cls tagno obj
  let encoded ← encodeInteger dbuf cls tagno obj
  return ⟨{ encoded.2 with cursor := header.data.length }, encoded.2.data.length - header.data.length⟩

def IntegerRoundTrips (dbuf : Dbuf) (cls : TagClass) (tagno obj : BitVec 32) : Prop :=
  (integerNode dbuf cls tagno obj >>= decodeInteger) = .ok obj

/-- The number that octets denote in BER. -/
def twosComplement (content : List UInt8) : ℤ :=
  if ∃ first ∈ content.head?, 128 ≤ first.toNat then magnitude content - 256 ^ content.length
  else magnitude content

theorem integerHeader_ok (dbuf : Dbuf) (cls : TagClass) (tagno obj : BitVec 32) :
    ∃ header, integerHeader dbuf cls tagno obj = .ok header := by
  obtain ⟨_, tag, htag⟩ := putTag_ok dbuf cls .PRIMITIVE tagno
  obtain ⟨_, length, hlength⟩ := putLen_ok (dbuf.put tag) (BitVec.ofNat 32 (integerSize obj))
  exact ⟨_, bind_eq_ok.mpr ⟨_, htag, bind_eq_ok.mpr ⟨_, hlength, rfl⟩⟩⟩

theorem integerNode_ok (dbuf : Dbuf) (cls : TagClass) (tagno obj : BitVec 32) :
    ∃ node, integerNode dbuf cls tagno obj = .ok node ∧
      HoldsContent node (octets obj (integerSize obj)) := by
  obtain ⟨header, hheader⟩ := integerHeader_ok dbuf cls tagno obj
  refine ⟨_, by rw [integerNode, encodeInteger, hheader]; rfl, ?_, ?_⟩
  · simp [Dbuf.put]
  · simp [Dbuf.put]

theorem integerRoundTrips_iff (dbuf : Dbuf) (cls : TagClass) (tagno obj : BitVec 32) :
    IntegerRoundTrips dbuf cls tagno obj ↔ 0 ≤ obj.toInt ∨ obj.toInt < -(2 ^ 23) := by
  obtain ⟨node, hnode, hcontent⟩ := integerNode_ok dbuf cls tagno obj
  have hsize := integerSize_le obj
  have hfits := fitsIn_integerSize obj
  have hlt := obj.isLt
  have hint := BitVec.toInt_eq_toNat_cond obj
  have hmagnitude : magnitude (octets obj (integerSize obj)) = obj.toNat % 256 ^ integerSize obj := by
    rw [magnitude, map_toNat_octets obj hsize, value_lowDigits]
  have hdecoded : IntegerRoundTrips dbuf cls tagno obj ↔ obj.toNat < 256 ^ integerSize obj := by
    have hmod := Nat.mod_le obj.toNat (256 ^ integerSize obj)
    have hpos : 0 < 256 ^ integerSize obj := Nat.pow_pos (by decide)
    rw [IntegerRoundTrips, hnode]
    change decodeInteger node = .ok obj ↔ _
    rw [decodeInteger_spec hcontent, hmagnitude, Except.ok.injEq, ← BitVec.toNat_inj, BitVec.toNat_ofNat,
      Nat.mod_eq_of_lt (hmod.trans_lt hlt), Nat.mod_eq_iff_lt hpos.ne']
  rw [hdecoded]
  by_cases hneg : 0 ≤ obj.toInt
  · -- the highest bit of the first octet is 0, so nothing is missing
    refine iff_of_true ?_ (Or.inl hneg)
    have hpow : (2 : ℤ) ^ (8 * integerSize obj - 1) ≤ 256 ^ integerSize obj := by
      rw [show (256 : ℤ) = 2 ^ 8 from rfl, ← pow_mul]
      exact pow_le_pow_right₀ (by decide) (Nat.sub_le ..)
    have htoNat : (obj.toNat : ℤ) = obj.toInt := by
      split_ifs at hint <;> omega
    have hbound : (obj.toNat : ℤ) < 256 ^ integerSize obj := by
      rw [htoNat]
      exact hfits.2.trans_le hpow
    exact_mod_cast hbound
  · have hfour := integerSize_eq_four_iff obj
    have hlarge : 2 ^ 31 ≤ obj.toNat := by
      split_ifs at hint <;> omega
    have hthree : FitsIn 3 obj ↔ -(2 ^ 23) ≤ obj.toInt :=
      ⟨fun h ↦ h.1, fun h ↦ ⟨h, lt_trans (not_le.mp hneg) (by decide)⟩⟩
    rw [hthree, not_le] at hfour
    rw [or_iff_right hneg, ← hfour]
    constructor
    · intro hbelow
      by_contra hne
      have hpow : 256 ^ integerSize obj ≤ 256 ^ 3 := Nat.pow_le_pow_right (by decide) (by omega)
      omega
    · intro hsize
      rw [hsize]
      exact hlt

theorem toInt_decodeInteger_iff {node : AsnNode} (h : HoldsContent node content)
    (hlong : content.length ≤ 4) :
    (decodeInteger node).map BitVec.toInt = .ok (twosComplement content) ↔
      content.length = 4 ∨ ∀ first ∈ content.head?, first.toNat < 128 := by
  rw [decodeInteger_spec h]
  change Except.ok _ = _ ↔ _
  rw [Except.ok.injEq, BitVec.toInt_eq_toNat_cond, BitVec.toNat_ofNat]
  have hlt := magnitude_lt content
  have hpow : 256 ^ content.length ≤ 2 ^ 32 := Nat.pow_le_pow_right (n := 256) (by decide) hlong
  rw [Nat.mod_eq_of_lt (hlt.trans_le hpow)]
  cases content with
  | nil => simp [twosComplement, magnitude]
  | cons octet rest =>
    have hdigits : ∀ digit ∈ rest.map UInt8.toNat, digit < 256 := by
      intro digit hmem
      obtain ⟨octet, -, rfl⟩ := List.mem_map.mp hmem
      exact octet.toNat_lt
    have hsign := le_value_cons_iff octet.toNat hdigits 128
    rw [List.length_map] at hsign
    change 128 * 256 ^ rest.length ≤ magnitude (octet :: rest) ↔ _ at hsign
    have hsigned : twosComplement (octet :: rest) =
        if 128 ≤ octet.toNat then (magnitude (octet :: rest) : ℤ) - 256 ^ (rest.length + 1)
        else magnitude (octet :: rest) := by
      simp [twosComplement]
    have hfirst : (∀ first ∈ (octet :: rest).head?, first.toNat < 128) ↔ ¬128 ≤ octet.toNat := by
      simp
    rw [hsigned, hfirst]
    rw [List.length_cons] at hlt hlong ⊢
    generalize magnitude (octet :: rest) = total at hlt hsign ⊢
    by_cases hfour : rest.length = 3
    · -- four octets: the sign of the `int` is the highest bit
      rw [hfour] at hlt hsign ⊢
      refine iff_of_true ?_ (Or.inl rfl)
      split_ifs <;> omega
    · have hshort : (256 : ℕ) ^ (rest.length + 1) ≤ 256 ^ 3 := Nat.pow_le_pow_right (by decide) (by omega)
      have hpos : (0 : ℤ) < 256 ^ (rest.length + 1) := by positivity
      rw [if_pos (show 2 * total < 2 ^ 32 by omega)]
      split_ifs with hfirst
      · exact iff_of_false (by omega) (by omega)
      · exact iff_of_true rfl (Or.inr hfirst)

/-- Decoding the octets that encode a number gives it back, and decoding the octets of a number in BER
gives this number, in these cases and no others. -/
theorem decodeInteger_iff (dbuf : Dbuf) (cls : TagClass) (tagno obj : BitVec 32) {node : AsnNode}
    {content : List UInt8} (h : HoldsContent node content) (hlong : content.length ≤ 4) :
    (IntegerRoundTrips dbuf cls tagno obj ↔ 0 ≤ obj.toInt ∨ obj.toInt < -(2 ^ 23)) ∧
      ((decodeInteger node).map BitVec.toInt = .ok (twosComplement content) ↔
        content.length = 4 ∨ ∀ first ∈ content.head?, first.toNat < 128) :=
  ⟨integerRoundTrips_iff dbuf cls tagno obj, toInt_decodeInteger_iff h hlong⟩

/-- The node of a single octet, all bits of which are set. -/
def allBits : AsnNode := ⟨⟨[0xFF], 0⟩, 1⟩

theorem decodeInteger_allBits_iff :
    (IntegerRoundTrips .new .BER_CONTEXT 5 (-1) ↔
        0 ≤ (-1 : BitVec 32).toInt ∨ (-1 : BitVec 32).toInt < -(2 ^ 23)) ∧
      ((decodeInteger allBits).map BitVec.toInt = .ok (twosComplement [0xFF]) ↔
        [(0xFF : UInt8)].length = 4 ∨ ∀ first ∈ [(0xFF : UInt8)].head?, first.toNat < 128) :=
  decodeInteger_iff .new .BER_CONTEXT 5 (-1) ⟨rfl, List.prefix_refl _⟩ (by decide)

/-- The octet that encodes -1 is read as 255. -/
theorem not_integerRoundTrips_neg_one :
    ¬IntegerRoundTrips .new .BER_CONTEXT 5 (-1) ∧
      (integerNode .new .BER_CONTEXT 5 (-1) >>= decodeInteger) = .ok 255 ∧
      (decodeInteger allBits).map BitVec.toInt ≠ .ok (twosComplement [0xFF]) := by
  have hrun : (integerNode .new .BER_CONTEXT 5 (-1) >>= decodeInteger) = .ok 255 := by decide +kernel
  have hoctet : (decodeInteger allBits).map BitVec.toInt = .ok 255 := by decide +kernel
  have hmeaning : twosComplement [0xFF] = -1 := by decide +kernel
  refine ⟨?_, hrun, ?_⟩
  · rw [IntegerRoundTrips, hrun, Except.ok.injEq]
    decide
  · rw [hoctet, hmeaning, Ne, Except.ok.injEq]
    decide

end Cheshire.Zpdu
