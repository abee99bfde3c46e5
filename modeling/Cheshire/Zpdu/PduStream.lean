import Cheshire.Zpdu.BerIntegers
import Cheshire.Zpdu.BerTrees

/-!
# Units that come from a stream

`GetPDUFromStream` reads tag, length and content of a value from a socket, and the values in a constructed
one by calls of itself, until their octets are as many as the length says or the end of contents comes.
The stream is the list of the octets that still come before the connection is closed; a routine that
closes the socket leaves no octets.
-/

namespace Cheshire.Zpdu

open Lib.Radix

/-- What `GetTAGFromStream` stores. -/
structure StreamTag where
  cls : TagClass
  form : TagForm
  tagno : BitVec 32
  size : ℕ

/-- `(ch >> 6) & 0x03` -/
def classOf (ch : UInt8) : TagClass :=
  if ch >>> 6 = 0 then .UNIVERSAL
  else if ch >>> 6 = 1 then .APPLICATION
  else if ch >>> 6 = 2 then .BER_CONTEXT
  else .PRIVATE

/-- `(ch >> 5) & 0x01` -/
def formOf (ch : UInt8) : TagForm := if ch >>> 5 &&& 1 = 0 then .PRIMITIVE else .CONSTRUCTED

/-- The long form of a tag number, with the octets read. -/
def readTagno : List UInt8 → BitVec 32 → ℕ → Option (BitVec 32 × ℕ × List UInt8)
  | [], _, _ => none
  | ch :: stream, tagno, len =>
    if ch.toNat < 128 then some ((tagno <<< 7) + ch.toBitVec.setWidth 32, len + 1, stream)
    else readTagno stream ((tagno <<< 7) + (ch &&& 0x7F).toBitVec.setWidth 32) (len + 1)

/-- `GetTAGFromStream`, where it returns 1. -/
def getTagFromStream : List UInt8 → Option (StreamTag × List UInt8)
  | [] => none
  | ch :: stream =>
    if ch = 0 then
      if stream.head? = some 0 then some (⟨.UNIVERSAL, .PRIMITIVE, 0, 2⟩, stream.tail) else none
    else if ch &&& 0x1F = 31 then
      (readTagno stream 0 1).map fun long ↦ (⟨classOf ch, formOf ch, long.1, long.2.1⟩, long.2.2)
    else some (⟨classOf ch, formOf ch, (ch &&& 0x1F).toBitVec.setWidth 32, 1⟩, stream)

/-- `len <<= 8; len += ch;` -/
def addOctet (len : BitVec 32) (ch : UInt8) : BitVec 32 := (len <<< 8) + ch.toBitVec.setWidth 32

/-- `GetLENFromStream`: the length, `*size` and the stream.  At the end of the stream, and where a length
has more octets than an `int`, it returns 0 and leaves `*size`. -/
def getLenFromStream (size : ℤ) : List UInt8 → ℤ × ℤ × List UInt8
  | [] => (0, size, [])
  | ch :: stream =>
    let nocs := (ch &&& 0x7F).toNat
    if ch &&& 0x80 = 0 then (ch.toNat, 1, stream)
    else if ch = 0x80 then (-1, 1, stream)
    else if nocs > 4 then (0, size, stream)
    else if stream.length < nocs then (0, size, [])
    else (((stream.take nocs).foldl addOctet 0).toInt, nocs + 1, stream.drop nocs)

/-- What a call returns and has stored in `*size`, and the stream. -/
structure Received where
  node : AsnTree
  size : ℤ
  stream : List UInt8

/-- `if (len >= 0) ltmp -= stmp;` -/
def leftOver (len ltmp stmp : ℤ) : Exec ℤ := if 0 ≤ len then checkInt (ltmp - stmp) else .ok ltmp

/-- `while (!done)`: the children, `running_size` and the stream; `none` where `NULL` is returned.  `get`
is the call for a child, which stores its size in `stmp`. -/
def childLoop (get : ℤ → List UInt8 → Exec Received) (len : ℤ) :
    ℕ → ℤ → ℤ → ℤ → List UInt8 → Exec (Option AsnTree × ℤ × List UInt8)
  | 0, _, _, _, _ => .error .unfinished
  | fuel + 1, ltmp, stmp, runningSize, stream => do
    let child ← get stmp stream
    let runningSize ← checkInt (runningSize + child.size)
    if child.node = .null then
      -- the end of contents, or an error
      .ok (if child.size ≠ 0 ∧ len < 0 then some .null else none, runningSize, child.stream)
    else do
      let ltmp ← leftOver len ltmp child.size
      if 0 ≤ len ∧ ltmp ≤ 0 then .ok (some child.node, runningSize, child.stream)
      else do
        let rest ← childLoop get len fuel ltmp child.size runningSize child.stream
        .ok (rest.1.map child.node.withNext, rest.2)

/-- The content of a primitive value, in a block of zeros. -/
def readContent (len : ℤ) (stream : List UInt8) : Exec (List UInt8) :=
  if 0 < len then do
    let _ ← checkInt (len + 1)
    .ok (stream.take len.toNat ++ List.replicate (len.toNat - stream.length) 0)
  else .ok []

/-- A value behind its tag. -/
def getValue (childrenOf : ℤ → ℤ → ℤ → List UInt8 → Exec (Option AsnTree × ℤ × List UInt8)) (size : ℤ)
    (tag : StreamTag) (stream : List UInt8) : Exec Received := do
  let len := getLenFromStream tag.size stream
  let runningSize ← checkInt (tag.size + len.2.1)
  if tag.form = .PRIMITIVE then do
    let content ← readContent len.1 len.2.2
    let runningSize ← checkInt (runningSize + len.1)
    .ok ⟨.node tag.cls tag.form tag.tagno content len.1 .null .null, runningSize,
      len.2.2.drop len.1.toNat⟩
  else if len.1 = 0 then
    .ok ⟨.node tag.cls tag.form tag.tagno [] 0 .null .null, runningSize, len.2.2⟩
  else do
    let children ← childrenOf len.1 len.2.1 runningSize len.2.2
    .ok (children.1.elim ⟨.null, size, children.2.2⟩ fun head ↦
      ⟨.node tag.cls tag.form tag.tagno [] len.1 head .null, children.2.1, children.2.2⟩)

/-- `GetPDUFromStream`, with a bound on the depth of its calls and on the passes of its loop; `size` is
what `*size` holds before. -/
def getPDUFromStream : ℕ → ℤ → List UInt8 → Exec Received
  | 0, _, _ => .error .unfinished
  | fuel + 1, size, stream =>
    (getTagFromStream stream).elim (.ok ⟨.null, size, []⟩) fun tagged ↦
      let tag := tagged.1
      if tag.tagno = 0 ∧ tag.cls = .UNIVERSAL ∧ tag.form = .PRIMITIVE then
        .ok ⟨.null, tag.size, tagged.2⟩
      else getValue (fun len stmp runningSize stream ↦
        childLoop (getPDUFromStream fuel) len fuel len stmp runningSize stream) size tag tagged.2

/-- A call with as many passes as it can need. -/
def getPDU (stream : List UInt8) : Exec Received := getPDUFromStream (stream.length + 1) 0 stream

/-- `ReceivePDU`: what was read is written again. -/
def receivePDU (stream : List UInt8) : Exec (Option (List UInt8) × List UInt8) := do
  let received ← getPDU stream
  let inBuf ← if received.node = .null then .ok none
    else onSuccess (lengthAsnTree2 received.node) fun root ↦ .ok (serializeAsnTree root.2)
  .ok (inBuf, received.stream)

theorem idOctet_fields (cls : TagClass) (form : TagForm) {low : ℕ} (h : low < 32) :
    let ch := UInt8.ofNat (cls.code <<< 6 ||| form.code <<< 5 ||| low)
    classOf ch = cls ∧ formOf ch = form ∧ ch &&& 0x1F = UInt8.ofNat low ∧
      (ch = 0 → low = 0 ∧ cls = .UNIVERSAL ∧ form = .PRIMITIVE) := by
  have hall : ∀ i : Fin 32,
      let ch := UInt8.ofNat (cls.code <<< 6 ||| form.code <<< 5 ||| i.1)
      classOf ch = cls ∧ formOf ch = form ∧ ch &&& 0x1F = UInt8.ofNat i.1 ∧
        (ch = 0 → i.1 = 0 ∧ cls = .UNIVERSAL ∧ form = .PRIMITIVE) := by
    cases cls <;> cases form <;> decide +kernel
  exact hall ⟨low, h⟩

theorem readTagno_groups {high : List UInt8} {low : UInt8} (hhigh : ∀ group ∈ high, group.toNat < 128)
    (hlow : low.toNat < 128) (rest : List UInt8) (total len : ℕ) :
    readTagno (high.map (· ||| 0x80) ++ low :: rest) (BitVec.ofNat 32 total) len =
      some (BitVec.ofNat 32 (total * 128 ^ (high.length + 1) + value 128 ((high ++ [low]).map UInt8.toNat)),
        len + (high.length + 1), rest) := by
  induction high generalizing total len with
  | nil =>
    rw [List.map_nil, List.nil_append, readTagno, if_pos hlow, readArc_step]
    simp [value]
  | cons group high ih =>
    obtain ⟨hgroup, hhigh⟩ := List.forall_mem_cons.mp hhigh
    have hmarked : ¬(group ||| 0x80).toNat < 128 := by
      rw [UInt8.toNat_or]
      exact not_lt.mpr Nat.right_le_or
    rw [List.map_cons, List.cons_append, readTagno, if_neg hmarked, (marked_octet hgroup).1, readArc_step,
      ih hhigh, List.cons_append, List.map_cons, value_cons]
    simp only [List.length_map, List.length_append, List.length_cons, List.length_nil, zero_add]
    refine congrArg some (Prod.ext (congrArg (BitVec.ofNat 32) ?_) (Prod.ext ?_ rfl))
    · ring
    · ring

theorem getTagFromStream_tagOctets (cls : TagClass) (form : TagForm) {tagno : BitVec 32}
    (h : ¬(tagno = 0 ∧ cls = .UNIVERSAL ∧ form = .PRIMITIVE)) (rest : List UInt8) :
    getTagFromStream (tagOctets cls form tagno.toNat ++ rest) =
      some (⟨cls, form, tagno, (tagOctets cls form tagno.toNat).length⟩, rest) := by
  by_cases hshort : tagno.toNat < 31
  · have hmask : tagno.toNat &&& 0x1F = tagno.toNat := by
      rw [Nat.and_two_pow_sub_one_eq_mod _ 5]
      exact Nat.mod_eq_of_lt (by omega)
    obtain ⟨hcls, hform, hlow, hzero⟩ := @idOctet_fields cls form tagno.toNat (by omega)
    have hne : UInt8.ofNat tagno.toNat ≠ 31 := fun heq ↦ by
      have hnat := congrArg UInt8.toNat heq
      rw [UInt8.toNat_ofNat_of_lt' (show tagno.toNat < 256 by omega)] at hnat
      exact absurd hnat hshort.ne
    have hback : (UInt8.ofNat tagno.toNat).toBitVec.setWidth 32 = tagno := by
      apply BitVec.eq_of_toNat_eq
      rw [BitVec.toNat_setWidth, UInt8.toNat_toBitVec,
        UInt8.toNat_ofNat_of_lt' (show tagno.toNat < 256 by omega), Nat.mod_eq_of_lt (by omega)]
    rw [tagOctets, if_pos hshort, hmask, List.singleton_append, getTagFromStream,
      if_neg fun hch ↦ h ⟨BitVec.eq_of_toNat_eq (hzero hch).1, (hzero hch).2⟩, hlow, if_neg hne, hcls, hform,
      hback]
    rfl
  · obtain ⟨hcls, hform, hlow, hzero⟩ := @idOctet_fields cls form 0x1F (by decide)
    obtain ⟨high, low, hoctets, hhigh, hsmall, hvalue⟩ := @arcOctets_eq tagno.toNat (by omega)
    have hread := readTagno_groups hhigh hsmall rest 0 1
    rw [hvalue, zero_mul, zero_add, BitVec.ofNat_toNat, BitVec.setWidth_eq] at hread
    rw [tagOctets, if_neg hshort, hoctets, List.cons_append, List.append_assoc, List.singleton_append,
      getTagFromStream, if_neg fun hch ↦ absurd (hzero hch).1 (by decide), hlow, if_pos (by decide)]
    change (readTagno _ (BitVec.ofNat 32 0) 1).map _ = _
    rw [hread, Option.map_some, hcls, hform, Nat.add_comm 1, List.length_cons, List.length_append,
      List.length_map, List.length_singleton]

theorem foldl_addOctet (octets : List UInt8) (total : ℕ) :
    octets.foldl addOctet (BitVec.ofNat 32 total) =
      BitVec.ofNat 32 (total * 256 ^ octets.length + value 256 (octets.map UInt8.toNat)) := by
  induction octets generalizing total with
  | nil => simp [value]
  | cons ch octets ih =>
    rw [List.foldl_cons, addOctet, readInteger_step, ih, List.map_cons, value_cons, List.length_map,
      List.length_cons, pow_succ]
    congr 1
    ring

theorem getLenFromStream_lenOctets (size : ℤ) {length : ℕ} (h : length ≤ INT_MAX) (rest : List UInt8) :
    getLenFromStream size (lenOctets length ++ rest) = ((length : ℤ), ((lenOctets length).length : ℤ), rest) := by
  rw [INT_MAX] at h
  by_cases hshort : length < 128
  · have hall : ∀ i : Fin 128, UInt8.ofNat i &&& 0x80 = 0 := by decide +kernel
    rw [lenOctets, if_pos hshort, List.singleton_append, getLenFromStream]
    simp only [hall ⟨length, hshort⟩, if_true, UInt8.toNat_ofNat_of_lt' (hshort.trans (by decide))]
    rfl
  · have hcount : (Nat.digits 256 length).length ≤ 4 :=
      (Nat.digits_length_le_iff (by decide) length).mpr (by omega)
    have hpos : 0 < (Nat.digits 256 length).length :=
      List.length_pos_iff.mpr (Nat.digits_ne_nil_iff_ne_zero.mpr (by omega))
    have hall : ∀ i : Fin 5, 0 < i.1 → (UInt8.ofNat i ||| 0x80) &&& 0x80 ≠ 0 ∧
        UInt8.ofNat i ||| 0x80 ≠ 0x80 ∧ ((UInt8.ofNat i ||| 0x80) &&& 0x7F).toNat = i := by decide +kernel
    obtain ⟨hlong, hdefinite, hnocs⟩ := hall ⟨_, Nat.lt_succ_of_le hcount⟩ hpos
    have hdigits : ((Nat.digits 256 length).map UInt8.ofNat).map UInt8.toNat = Nat.digits 256 length := by
      rw [List.map_map]
      refine (List.map_congr_left fun digit hmem ↦ ?_).trans (List.map_id _)
      exact UInt8.toNat_ofNat_of_lt' (Nat.digits_lt_base (by decide) hmem)
    have hvalue := foldl_addOctet ((Nat.digits 256 length).map UInt8.ofNat).reverse 0
    rw [zero_mul, zero_add, List.map_reverse, hdigits, value_reverse, Nat.ofDigits_digits] at hvalue
    have hreversed : ((Nat.digits 256 length).map UInt8.ofNat).reverse.length =
        (Nat.digits 256 length).length := by rw [List.length_reverse, List.length_map]
    rw [lenOctets, if_neg hshort, List.cons_append, getLenFromStream]
    simp only at hlong hdefinite hnocs
    simp only [hlong, hdefinite, hnocs, if_false]
    rw [if_neg (by omega), if_neg (by rw [List.length_append, hreversed]; omega),
      List.take_left' hreversed, List.drop_left' hreversed, List.length_cons, hreversed]
    change (BitVec.toInt (List.foldl _ (BitVec.ofNat 32 0) _), _, _) = _
    rw [hvalue, toInt_ofNat_of_lt (by omega)]
    rfl

end Cheshire.Zpdu
