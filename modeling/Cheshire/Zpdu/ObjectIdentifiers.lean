import Cheshire.Lib.DigitOrder
import Cheshire.Lib.Radix
import Cheshire.Zpdu.BerPrimitives

/-!
# Object identifiers in BER

An object identifier is given by its text.  The encoder reads the arcs from the text, packs the first
two of them into one number and writes each number in groups of seven bits; the decoder undoes this.
-/

namespace Cheshire.Zpdu

open Lib.Radix Lib.DigitOrder

/-- The places of `ids` in a `struct internal_oid`. -/
def maxIds : ℕ := 50

/-- `atoi` of digits: a `long` that is cut to an `int`. -/
def atoi (digits : List Char) : BitVec 32 :=
  BitVec.ofNat 32 (min (Nat.ofDigitChars 10 digits 0) (2 ^ 63 - 1))

/-- The loop of `oid_convert`, for a text and the arcs found so far.  Behind the last digits the loop
that skips other characters goes past the end of the text; a number needs a place for its NUL. -/
def convertArcs : ℕ → List Char → List (BitVec 32) → Exec (List (BitVec 32))
  | _, [], ids => .ok ids
  | 0, _ :: _, _ => .error .unfinished
  | fuel + 1, c :: text, ids =>
    let rest := (c :: text).dropWhile (!·.isDigit)
    let number := rest.takeWhile Char.isDigit
    if rest = [] ∨ maxIds ≤ number.length ∨ maxIds ≤ ids.length then .error .outOfBounds
    else convertArcs fuel (rest.dropWhile Char.isDigit) (ids ++ [atoi number])

/-- The `ids` of the structure that `oid_convert` fills, as many as it counts; the others are 0. -/
def oidConvert (oidstr : List Char) : Exec (List (BitVec 32)) := convertArcs oidstr.length oidstr []

/-- The first octet that is written is `data[0]`, whether the loop has stored one or not. -/
def encodeOidComponent (buf : Dbuf) (component : BitVec 32) : Exec Dbuf := do
  let data ← cutGroups 7 1024 component
  if data = [] then .error .uninitialized else return buf.put (markGroups data)

/-- `the_oid->ids[0] * 40 + the_oid->ids[1]` -/
def packArcs (ids : List (BitVec 32)) : Exec (BitVec 32) := do
  let product ← checkInt ((ids.getD 0 0).toInt * 40)
  let sum ← checkInt (product + (ids.getD 1 0).toInt)
  return BitVec.ofInt 32 sum

/-- The octets of the components in the order of the arcs. -/
def encodeComponents (ids : List (BitVec 32)) : Exec Dbuf := do
  let tmp ← packArcs ids
  let buf ← encodeOidComponent .new tmp
  (ids.drop 2).foldlM encodeOidComponent buf

/-- The tag and the length of an object identifier. -/
def oidHeader (dbuf : Dbuf) (cls : TagClass) (tagno : BitVec 32) (size : ℕ) :
    Exec (ZStatus × Dbuf) := do
  let tagged ← putTag dbuf cls .PRIMITIVE tagno
  if tagged.1 = .Z_ERROR then return (.Z_ERROR, tagged.2)
  else putLen tagged.2 (BitVec.ofNat 32 size)

def encodeOid (dbuf : Dbuf) (cls : TagClass) (tagno : BitVec 32) (obj : List Char) :
    Exec (ZStatus × Dbuf) := do
  let ids ← oidConvert obj
  let buf ← encodeComponents ids
  let header ← oidHeader dbuf cls tagno buf.data.length
  if header.1 = .Z_ERROR then return (.Z_ERROR, header.2)
  else return (.Z_OK, header.2.put buf.data)

/-- What the loops of `decode_oid` change: the buffer, the octet read last and the number of octets. -/
structure OidScan where
  buf : Dbuf
  ch : Option UInt8
  i : ℕ

/-- The inner loop: groups are read until one is not marked.  At the end of the buffer the octet read
last is taken again and again. -/
def readArc : ℕ → OidScan → BitVec 32 → Exec (OidScan × BitVec 32)
  | 0, _, _ => .error .unfinished
  | fuel + 1, s, t =>
    match s.buf.get s.ch with
    | (none, _) => .error .uninitialized
    | (some ch, buf) =>
      let t := (t <<< 7) + (ch &&& 0x7f).toBitVec.setWidth 32
      if ch &&& 0x80 = 0x80 then readArc fuel ⟨buf, some ch, s.i + 1⟩ t
      else .ok (⟨buf, some ch, s.i + 1⟩, t)

/-- The first component holds two arcs. -/
def storeArc (ids : List (BitVec 32)) (t : BitVec 32) : Exec (List (BitVec 32)) :=
  if ids = [] then .ok [t.sdiv 40, t.srem 40]
  else if ids.length < maxIds then .ok (ids ++ [t])
  else .error .outOfBounds

/-- The outer loop of `decode_oid`. -/
def readArcs (length : ℤ) : ℕ → OidScan → List (BitVec 32) → Exec (List (BitVec 32))
  | fuel, s, ids =>
    if length ≤ s.i then .ok ids
    else
      match fuel with
      | 0 => .error .unfinished
      | fuel + 1 => do
        let read ← readArc (s.buf.data.length - s.buf.cursor + 1) s 0
        let ids ← storeArc ids read.2
        readArcs length fuel read.1 ids

/-- The `ids` of the structure that `decode_oid` fills, as many as it counts. -/
def decodeOid (buf : Dbuf) (length : ℤ) : Exec (List (BitVec 32)) :=
  readArcs length length.toNat ⟨buf, none, 0⟩ []

/-- `DecodeOid` -/
def decodeOidText (node : AsnNode) : Exec (List Char) := do
  let ids ← decodeOid node.dbuf node.length
  return ['.'].intercalate (ids.map fun id ↦ decimalInt id.toInt)

def dotted (arcs : List ℕ) : List Char := ['.'].intercalate (arcs.map decimal)

theorem dotted_cons (arc : ℕ) (arcs : List ℕ) (h : arcs ≠ []) :
    dotted (arc :: arcs) = decimal arc ++ '.' :: dotted arcs := by
  obtain ⟨next, rest, rfl⟩ := List.exists_cons_of_ne_nil h
  simp [dotted, List.intercalate]

variable {arc : ℕ}

theorem atoi_decimal (h : arc < 2 ^ 32) : atoi (decimal arc) = BitVec.ofNat 32 arc := by
  have hvalue : Nat.ofDigitChars 10 (decimal arc) 0 = arc := Nat.ofDigitChars_ten_toDigits
  rw [atoi, hvalue, min_eq_left (by omega)]

theorem length_decimal_lt (h : arc < 2 ^ 32) : (decimal arc).length < maxIds := by
  have hle : (decimal arc).length ≤ 10 := (length_decimal_le_iff (by decide)).mpr (by omega)
  exact hle.trans_lt (by decide)

theorem convertArcs_step (h : arc < 2 ^ 32) {dot : List Char} (hdot : dot = [] ∨ dot = ['.'])
    (rest : List Char) (hrest : ∀ c ∈ rest.head?, c.isDigit = false) (fuel : ℕ)
    (ids : List (BitVec 32)) : convertArcs (fuel + 1) (dot ++ decimal arc ++ rest) ids =
      if maxIds ≤ ids.length then .error .outOfBounds
      else convertArcs fuel rest (ids ++ [BitVec.ofNat 32 arc]) := by
  obtain ⟨first, others, hdigits⟩ := List.exists_cons_of_ne_nil (decimal_ne_nil arc)
  have hfirst : first.isDigit = true := isDigit_of_mem_decimal (n := arc) (hdigits ▸ List.mem_cons_self)
  have hskip : (dot ++ decimal arc ++ rest).dropWhile (!·.isDigit) = decimal arc ++ rest := by
    rcases hdot with rfl | rfl
    · rw [hdigits, List.nil_append, List.cons_append, List.dropWhile_cons_of_neg (by simp [hfirst])]
    · rw [hdigits, List.singleton_append, List.cons_append, List.dropWhile_cons_of_pos (by decide),
        List.cons_append, List.dropWhile_cons_of_neg (by simp [hfirst])]
  have htake : (decimal arc ++ rest).takeWhile Char.isDigit = decimal arc := by
    rw [List.takeWhile_append_of_pos fun c hc ↦ isDigit_of_mem_decimal hc]
    rcases rest with _ | ⟨c, rest⟩
    · simp
    · rw [List.takeWhile_cons_of_neg (by simp [hrest c (by simp)])]
      simp
  have hdrop : (decimal arc ++ rest).dropWhile Char.isDigit = rest := by
    rw [List.dropWhile_append_of_pos fun c hc ↦ isDigit_of_mem_decimal hc]
    rcases rest with _ | ⟨c, rest⟩
    · rfl
    · rw [List.dropWhile_cons_of_neg (by simp [hrest c (by simp)])]
  have hne : decimal arc ++ rest ≠ [] := by simp [hdigits]
  have hlength := length_decimal_lt h
  obtain ⟨c, text, htext⟩ := List.exists_cons_of_ne_nil
    (show dot ++ decimal arc ++ rest ≠ [] by simp [hdigits])
  rw [htext, convertArcs, ← htext, hskip, htake, hdrop, atoi_decimal h]
  simp [hne, not_le.mpr hlength]

variable {fuel : ℕ}

theorem convertArcs_dotted {arcs : List ℕ} (hne : arcs ≠ []) (h : ∀ arc ∈ arcs, arc < 2 ^ 32)
    {dot : List Char} (hdot : dot = [] ∨ dot = ['.']) (hfuel : arcs.length ≤ fuel)
    (ids : List (BitVec 32)) : convertArcs fuel (dot ++ dotted arcs) ids =
      if ids.length + arcs.length ≤ maxIds then .ok (ids ++ arcs.map (BitVec.ofNat 32))
      else .error .outOfBounds := by
  induction arcs generalizing dot fuel ids with
  | nil => exact absurd rfl hne
  | cons arc arcs ih =>
    obtain ⟨fuel, rfl⟩ : ∃ rest, fuel = rest + 1 := ⟨fuel - 1, by simp at hfuel; omega⟩
    have harc := h arc List.mem_cons_self
    have hrest := fun other hmem ↦ h other (List.mem_cons_of_mem arc hmem)
    have hfuel : arcs.length ≤ fuel := Nat.le_of_succ_le_succ hfuel
    by_cases hlast : arcs = []
    · have hstep := convertArcs_step harc hdot [] (by simp) fuel ids
      have htext : dot ++ dotted [arc] = dot ++ decimal arc ++ [] := by simp [dotted]
      rw [hlast, htext, hstep, convertArcs]
      by_cases hfull : maxIds ≤ ids.length
      · rw [if_pos hfull, if_neg (by rw [List.length_singleton]; omega)]
      · rw [if_neg hfull, if_pos (by rw [List.length_singleton]; omega)]
        rfl
    · have hstep := convertArcs_step harc hdot ('.' :: dotted arcs) (by simp) fuel ids
      have hnext := ih hlast hrest (Or.inr rfl) hfuel (ids ++ [BitVec.ofNat 32 arc])
      rw [List.singleton_append] at hnext
      rw [dotted_cons arc arcs hlast, ← List.append_assoc, hstep, hnext, List.length_append,
        List.length_singleton, List.length_cons, List.append_assoc, List.map_cons]
      by_cases hfull : maxIds ≤ ids.length
      · rw [if_pos hfull, if_neg (by omega)]
      · rw [if_neg hfull, Nat.add_assoc, Nat.add_comm 1]
        rfl

theorem length_le_dotted (arcs : List ℕ) : arcs.length ≤ (dotted arcs).length := by
  induction arcs with
  | nil => exact Nat.zero_le _
  | cons arc arcs ih =>
    have hpos := List.length_pos_of_ne_nil (decimal_ne_nil arc)
    by_cases hlast : arcs = []
    · rw [hlast]
      simp only [dotted, List.map_singleton, List.intercalate_singleton]
      exact hpos
    · rw [dotted_cons arc arcs hlast, List.length_append, List.length_cons, List.length_cons]
      omega

theorem oidConvert_dotted {arcs : List ℕ} (hne : arcs ≠ []) (h : ∀ arc ∈ arcs, arc < 2 ^ 32) :
    oidConvert (dotted arcs) =
      if arcs.length ≤ maxIds then .ok (arcs.map (BitVec.ofNat 32)) else .error .outOfBounds := by
  have hrun := convertArcs_dotted hne h (Or.inl rfl) (length_le_dotted arcs) []
  rw [List.length_nil, Nat.zero_add] at hrun
  exact hrun

/-- The groups of a number, the highest one first, every one but the last marked. -/
def arcOctets (arc : ℕ) : List UInt8 := markGroups ((Nat.digits 128 arc).map UInt8.ofNat)

variable {component : BitVec 32}

theorem encodeOidComponent_of_pos (h : 0 < component.toInt) (buf : Dbuf) :
    encodeOidComponent buf component = .ok (buf.put (arcOctets component.toNat)) := by
  have hmsb := msb_of_nonneg (not_lt.mpr h.le)
  obtain ⟨groups, hgroups, hdigits⟩ := @cutGroups_ok 7 1024 (by decide) (by decide)
    (by decide) _ hmsb
  have hmap : groups = (Nat.digits 128 component.toNat).map UInt8.ofNat := by
    change groups.map UInt8.toNat = Nat.digits 128 component.toNat at hdigits
    have hinverse : UInt8.ofNat ∘ UInt8.toNat = id := funext fun octet ↦ UInt8.ofNat_toNat
    rw [← hdigits, List.map_map, hinverse, List.map_id]
  have hne : component.toNat ≠ 0 := by
    rw [toInt_of_msb_false hmsb] at h
    omega
  have hnil : groups ≠ [] := by
    rw [hmap, Ne, List.map_eq_nil_iff]
    exact Nat.digits_ne_nil_iff_ne_zero.mpr hne
  rw [encodeOidComponent, hgroups, arcOctets, ← hmap]
  exact if_neg hnil

/-- A component that is not positive is not encoded: 0 has no group, a negative one has no end. -/
theorem encodeOidComponent_of_nonpos (h : component.toInt ≤ 0) (buf : Dbuf) :
    ∃ fault, encodeOidComponent buf component = .error fault := by
  rcases h.eq_or_lt with hzero | hneg
  · have heq : component = 0 := BitVec.eq_of_toInt_eq hzero
    exact ⟨.uninitialized, by rw [heq]; rfl⟩
  · have hmsb : component.msb = true := by
      rw [BitVec.msb_eq_toInt, decide_eq_true_iff]
      exact hneg
    exact ⟨.outOfBounds, by rw [encodeOidComponent, cutGroups_of_msb hmsb]; rfl⟩

variable {buf : Dbuf}

theorem encodeOidComponent_eq_ok_iff {result : Dbuf} :
    encodeOidComponent buf component = .ok result ↔
      0 < component.toInt ∧ result = buf.put (arcOctets component.toNat) := by
  by_cases h : 0 < component.toInt
  · rw [encodeOidComponent_of_pos h, Except.ok.injEq, and_iff_right h, eq_comm]
  · obtain ⟨fault, hfault⟩ := encodeOidComponent_of_nonpos (not_lt.mp h) buf
    rw [hfault]
    simp [h]

theorem foldlM_encodeOidComponent {components : List (BitVec 32)} {result : Dbuf} :
    components.foldlM encodeOidComponent buf = .ok result ↔
      (∀ component ∈ components, 0 < component.toInt) ∧
        result = buf.put (components.flatMap fun component ↦ arcOctets component.toNat) := by
  induction components generalizing buf with
  | nil =>
    rw [List.foldlM_nil, List.flatMap_nil, Dbuf.put_nil]
    simp [pure, Except.pure, eq_comm]
  | cons component components ih =>
    rw [List.foldlM_cons, bind_eq_ok]
    simp only [encodeOidComponent_eq_ok_iff, ih, List.forall_mem_cons, List.flatMap_cons, Dbuf.put_append]
    constructor
    · rintro ⟨_, ⟨hpos, rfl⟩, hrest, rfl⟩
      exact ⟨⟨hpos, hrest⟩, rfl⟩
    · rintro ⟨⟨hpos, hrest⟩, rfl⟩
      exact ⟨_, ⟨hpos, rfl⟩, hrest, rfl⟩

theorem low_octet {group : UInt8} (h : group.toNat < 128) :
    group &&& 0x7f = group ∧ group &&& 0x80 ≠ 0x80 := by
  have hall : ∀ i : Fin 128, UInt8.ofNat i &&& 0x7f = UInt8.ofNat i ∧ UInt8.ofNat i &&& 0x80 ≠ 0x80 := by
    decide +kernel
  have hgroup := hall ⟨group.toNat, h⟩
  rwa [UInt8.ofNat_toNat] at hgroup

theorem marked_octet {group : UInt8} (h : group.toNat < 128) :
    (group ||| 0x80) &&& 0x7f = group ∧ (group ||| 0x80) &&& 0x80 = 0x80 := by
  have hall : ∀ i : Fin 128, (UInt8.ofNat i ||| 0x80) &&& 0x7f = UInt8.ofNat i ∧
      (UInt8.ofNat i ||| 0x80) &&& 0x80 = 0x80 := by
    decide +kernel
  have hgroup := hall ⟨group.toNat, h⟩
  rwa [UInt8.ofNat_toNat] at hgroup

theorem readArc_step (total : ℕ) (group : UInt8) :
    (BitVec.ofNat 32 total <<< 7) + group.toBitVec.setWidth 32 =
      BitVec.ofNat 32 (total * 128 + group.toNat) := by
  apply BitVec.eq_of_toNat_eq
  have hgroup := group.toNat_lt
  rw [BitVec.toNat_add, BitVec.toNat_shiftLeft, BitVec.toNat_setWidth, BitVec.toNat_ofNat,
    BitVec.toNat_ofNat, Nat.shiftLeft_eq, UInt8.toNat_toBitVec]
  omega

/-- So many octets further on. -/
def OidScan.past (s : OidScan) (count : ℕ) (ch : UInt8) : OidScan :=
  ⟨{ s.buf with cursor := s.buf.cursor + count }, some ch, s.i + count⟩

theorem OidScan.past_past (s : OidScan) (first second : ℕ) (ch ch' : UInt8) :
    (s.past first ch).past second ch' = s.past (first + second) ch' := by
  simp only [OidScan.past, Nat.add_assoc]

variable {s : OidScan}

theorem readArc_spec {high : List UInt8} {low : UInt8} (hhigh : ∀ group ∈ high, group.toNat < 128)
    (hlow : low.toNat < 128)
    (hdata : high.map (· ||| 0x80) ++ [low] <+: s.buf.data.drop s.buf.cursor)
    (hfuel : high.length < fuel) (total : ℕ) :
    readArc fuel s (BitVec.ofNat 32 total) = .ok (s.past (high.length + 1) low,
      BitVec.ofNat 32 (total * 128 ^ (high.length + 1) + value 128 ((high ++ [low]).map UInt8.toNat))) := by
  induction high generalizing s fuel total with
  | nil =>
    obtain ⟨fuel, rfl⟩ : ∃ rest, fuel = rest + 1 := ⟨fuel - 1, by simp at hfuel; omega⟩
    obtain ⟨hget, -⟩ := get_of_cons_prefix s.ch hdata
    obtain ⟨hbits, hmark⟩ := low_octet hlow
    rw [readArc, hget]
    simp only [hbits, if_neg hmark, readArc_step]
    simp [OidScan.past, value]
  | cons group high ih =>
    obtain ⟨fuel, rfl⟩ : ∃ rest, fuel = rest + 1 := ⟨fuel - 1, by simp at hfuel; omega⟩
    obtain ⟨hget, hrest⟩ := get_of_cons_prefix s.ch hdata
    obtain ⟨hbits, hmark⟩ := marked_octet (hhigh group List.mem_cons_self)
    have hnext := ih (fun other hmem ↦ hhigh other (List.mem_cons_of_mem _ hmem))
      (s := s.past 1 (group ||| 0x80)) hrest (Nat.lt_of_succ_lt_succ hfuel) (total * 128 + group.toNat)
    have hvalue : (total * 128 + group.toNat) * 128 ^ (high.length + 1) +
        value 128 ((high ++ [low]).map UInt8.toNat) =
        total * 128 ^ ((group :: high).length + 1) +
          value 128 ((group :: high ++ [low]).map UInt8.toNat) := by
      rw [List.cons_append, List.map_cons, value_cons, List.length_map, List.length_append,
        List.length_singleton, List.length_cons, pow_succ 128 (high.length + 1)]
      ring
    have hpast : (s.past 1 (group ||| 0x80)).past (high.length + 1) low =
        s.past ((group :: high).length + 1) low := by
      rw [OidScan.past_past, Nat.add_comm 1]
      rfl
    rw [readArc, hget]
    simp only [hbits, if_pos hmark, readArc_step]
    rw [hvalue, hpast] at hnext
    exact hnext

theorem arcOctets_eq {arc : ℕ} (h : arc ≠ 0) :
    ∃ (high : List UInt8) (low : UInt8), arcOctets arc = high.map (· ||| 0x80) ++ [low] ∧
      (∀ group ∈ high, group.toNat < 128) ∧ low.toNat < 128 ∧
      value 128 ((high ++ [low]).map UInt8.toNat) = arc := by
  obtain ⟨digit, digits, hdigits⟩ := List.exists_cons_of_ne_nil (Nat.digits_ne_nil_iff_ne_zero.mpr h)
  have hsmall : ∀ other ∈ digit :: digits, other < 128 := by
    rw [← hdigits]
    exact fun other hmem ↦ Nat.digits_lt_base (by decide) hmem
  have hoctet : ∀ other ∈ digit :: digits, (UInt8.ofNat other).toNat = other := fun other hmem ↦
    UInt8.toNat_ofNat_of_lt ((hsmall other hmem).trans (by decide))
  refine ⟨(digits.map UInt8.ofNat).reverse, UInt8.ofNat digit, ?_, ?_, ?_, ?_⟩
  · rw [arcOctets, hdigits, markGroups]
    simp
  · intro group hmem
    obtain ⟨other, hother, rfl⟩ := List.mem_map.mp (List.mem_reverse.mp hmem)
    rw [hoctet other (List.mem_cons_of_mem _ hother)]
    exact hsmall other (List.mem_cons_of_mem _ hother)
  · rw [hoctet digit List.mem_cons_self]
    exact hsmall digit List.mem_cons_self
  · have hreverse : (digits.map UInt8.ofNat).reverse ++ [UInt8.ofNat digit] =
        ((digit :: digits).map UInt8.ofNat).reverse := by
      rw [List.map_cons, List.reverse_cons]
    have hback : ((digit :: digits).map UInt8.ofNat).map UInt8.toNat = digit :: digits := by
      rw [List.map_map]
      exact (List.map_congr_left hoctet).trans (List.map_id _)
    rw [hreverse, List.map_reverse, hback, value_reverse, ← hdigits, Nat.ofDigits_digits]

theorem readArc_arcOctets (harc : arc ≠ 0)
    (hdata : arcOctets arc <+: s.buf.data.drop s.buf.cursor) :
    ∃ ch, readArc (s.buf.data.length - s.buf.cursor + 1) s 0 =
      .ok (s.past (arcOctets arc).length ch, BitVec.ofNat 32 arc) := by
  obtain ⟨high, low, hoctets, hhigh, hlow, hvalue⟩ := arcOctets_eq harc
  have hlength : (arcOctets arc).length = high.length + 1 := by
    rw [hoctets, List.length_append, List.length_map, List.length_singleton]
  have hfuel : high.length < s.buf.data.length - s.buf.cursor + 1 := by
    have hle := hdata.length_le
    rw [List.length_drop] at hle
    omega
  have hread := readArc_spec hhigh hlow (s := s) (hoctets ▸ hdata) hfuel 0
  rw [hvalue, Nat.zero_mul, Nat.zero_add] at hread
  exact ⟨low, by rw [hlength]; exact hread⟩

theorem arcOctets_ne_nil (h : arc ≠ 0) : arcOctets arc ≠ [] := by
  obtain ⟨high, low, hoctets, -⟩ := arcOctets_eq h
  simp [hoctets]

variable {components : List ℕ}

theorem readArcs_spec (hne : ∀ component ∈ components, component ≠ 0)
    {s : OidScan} (hdata : components.flatMap arcOctets <+: s.buf.data.drop s.buf.cursor)
    {fuel : ℕ} (hfuel : components.length ≤ fuel) (ids : List (BitVec 32)) :
    readArcs (s.i + (components.flatMap arcOctets).length : ℕ) fuel s ids =
      (components.map (BitVec.ofNat 32)).foldlM storeArc ids := by
  induction components generalizing s fuel ids with
  | nil =>
    unfold readArcs
    exact if_pos (by simp)
  | cons component components ih =>
    obtain ⟨fuel, rfl⟩ : ∃ rest, fuel = rest + 1 := ⟨fuel - 1, by simp at hfuel; omega⟩
    have hcomponent := hne component List.mem_cons_self
    have hrest := fun other hmem ↦ hne other (List.mem_cons_of_mem component hmem)
    obtain ⟨behind, hbehind⟩ := hdata
    rw [List.flatMap_cons, List.append_assoc] at hbehind
    obtain ⟨ch, hread⟩ := readArc_arcOctets hcomponent (s := s) ⟨_, hbehind⟩
    have hnext := @ih hrest (s.past (arcOctets component).length ch)
      ⟨behind, by rw [OidScan.past, ← List.drop_drop, ← hbehind, List.drop_left]⟩ fuel
      (Nat.le_of_succ_le_succ hfuel)
    have hi : (s.past (arcOctets component).length ch).i + (components.flatMap arcOctets).length =
        s.i + ((component :: components).flatMap arcOctets).length := by
      rw [List.flatMap_cons, List.length_append, ← Nat.add_assoc]
      rfl
    rw [hi] at hnext
    have hpos := List.length_pos_of_ne_nil (arcOctets_ne_nil hcomponent)
    rw [readArcs, if_neg, List.map_cons, List.foldlM_cons, hread]
    · simp only [bind, Except.bind]
      cases storeArc ids (BitVec.ofNat 32 component) with
      | error fault => rfl
      | ok ids => exact hnext ids
    · rw [List.flatMap_cons, List.length_append]
      omega

theorem decodeOid_spec (hne : ∀ component ∈ components, component ≠ 0)
    (hdata : components.flatMap arcOctets <+: buf.data.drop buf.cursor) :
    decodeOid buf (components.flatMap arcOctets).length =
      (components.map (BitVec.ofNat 32)).foldlM storeArc [] := by
  have hfuel : components.length ≤ (components.flatMap arcOctets).length := by
    have hsum := List.length_le_sum_of_one_le (components.map fun component ↦ (arcOctets component).length)
      (List.forall_mem_map.mpr fun component hmem ↦
        List.length_pos_of_ne_nil (arcOctets_ne_nil (hne component hmem)))
    rwa [List.length_map, ← List.length_flatMap] at hsum
  have hread := readArcs_spec hne (s := ⟨buf, none, 0⟩) hdata hfuel []
  rw [Nat.zero_add] at hread
  exact hread

theorem foldlM_storeArc {ids components : List (BitVec 32)} (hne : ids ≠ []) (hle : ids.length ≤ maxIds) :
    components.foldlM storeArc ids =
      if ids.length + components.length ≤ maxIds then .ok (ids ++ components)
      else .error .outOfBounds := by
  induction components generalizing ids with
  | nil =>
    rw [List.length_nil, Nat.add_zero, if_pos hle, List.append_nil]
    rfl
  | cons component components ih =>
    rw [List.foldlM_cons, storeArc, if_neg hne]
    by_cases hroom : ids.length < maxIds
    · have hlength : (ids ++ [component]).length = ids.length + 1 := List.length_append
      rw [if_pos hroom]
      change components.foldlM storeArc (ids ++ [component]) = _
      rw [ih (by simp) (hlength ▸ hroom), hlength, Nat.add_assoc, Nat.add_comm 1, List.append_assoc]
      rfl
    · rw [if_neg hroom, if_neg (by rw [List.length_cons]; omega)]
      rfl

/-- An object identifier: at least two arcs, the second one below 40 unless the first one is 2. -/
structure Oid where
  first : ℕ
  second : ℕ
  rest : List ℕ
  first_le : first ≤ 2
  second_lt : first < 2 → second < 40
  small_second : second < 2 ^ 32
  small_rest : ∀ arc ∈ rest, arc < 2 ^ 32

def Oid.arcs (oid : Oid) : List ℕ := oid.first :: oid.second :: oid.rest

/-- The node of the octets that `encode_oid` writes behind the header. -/
def oidNode (dbuf : Dbuf) (cls : TagClass) (tagno : BitVec 32) (obj : List Char) : Exec AsnNode := do
  let ids ← oidConvert obj
  let buf ← encodeComponents ids
  let header ← oidHeader dbuf cls tagno buf.data.length
  let encoded ← encodeOid dbuf cls tagno obj
  return ⟨{ encoded.2 with cursor := header.2.data.length },
    encoded.2.data.length - header.2.data.length⟩

/-- Decoding gives the arcs back that were encoded. -/
def OidRoundTrips (dbuf : Dbuf) (cls : TagClass) (tagno : BitVec 32) (oid : Oid) : Prop :=
  ∃ node ids, oidNode dbuf cls tagno (dotted oid.arcs) = .ok node ∧
    decodeOid node.dbuf node.length = .ok ids ∧
    ids.map BitVec.toInt = oid.arcs.map fun arc : ℕ ↦ (arc : ℤ)

/-- The arcs that the encoder can write and the packed first component can tell. -/
structure Oid.Encodable (oid : Oid) : Prop where
  second_lt : oid.second < 40
  packed_pos : 0 < oid.first ∨ 0 < oid.second
  rest_pos : ∀ arc ∈ oid.rest, 0 < arc
  rest_lt : ∀ arc ∈ oid.rest, arc < 2 ^ 31
  few : oid.arcs.length ≤ maxIds

theorem length_arcOctets (h : arc < 2 ^ 31) : (arcOctets arc).length ≤ 5 := by
  have hdigits : (Nat.digits 128 arc).length ≤ 5 :=
    (Nat.digits_length_le_iff (by decide) arc).mpr (h.trans (by decide))
  rw [arcOctets, markGroups]
  simp only [List.length_append, List.length_reverse, List.length_map, List.length_tail, List.length_take]
  omega

theorem length_flatMap_arcOctets (h : ∀ component ∈ components, component < 2 ^ 31) :
    (components.flatMap arcOctets).length ≤ components.length * 5 := by
  induction components with
  | nil => simp
  | cons component components ih =>
    have hfirst := length_arcOctets (h component List.mem_cons_self)
    have hrest := ih fun other hmem ↦ h other (List.mem_cons_of_mem _ hmem)
    rw [List.flatMap_cons, List.length_append, List.length_cons]
    omega

theorem toInt_ofNat_pos_iff (h : arc < 2 ^ 32) :
    0 < (BitVec.ofNat 32 arc).toInt ↔ 0 < arc ∧ arc < 2 ^ 31 := by
  rw [BitVec.toInt_eq_toNat_cond, BitVec.toNat_ofNat, Nat.mod_eq_of_lt h]
  split_ifs <;> omega

theorem toInt_ofNat_of_lt (h : arc < 2 ^ 31) : (BitVec.ofNat 32 arc).toInt = arc := by
  rw [BitVec.toInt_eq_toNat_cond, BitVec.toNat_ofNat, Nat.mod_eq_of_lt (h.trans (by decide))]
  exact if_pos (by omega)

theorem packArcs_of_lt {first second : ℕ} (hfirst : first ≤ 2) (hsecond : second < 40)
    (rest : List (BitVec 32)) :
    packArcs (BitVec.ofNat 32 first :: BitVec.ofNat 32 second :: rest) =
      .ok (BitVec.ofNat 32 (first * 40 + second)) := by
  have hfirstInt := toInt_ofNat_of_lt (show first < 2 ^ 31 by omega)
  have hsecondInt := toInt_ofNat_of_lt (show second < 2 ^ 31 by omega)
  have hproduct : checkInt ((first : ℤ) * 40) = .ok (first * 40) := if_pos (by omega)
  have hsum : checkInt ((first : ℤ) * 40 + second) = .ok (first * 40 + second) := if_pos (by omega)
  have hcast : BitVec.ofInt 32 ((first : ℤ) * 40 + second) = BitVec.ofNat 32 (first * 40 + second) := by
    rw [← BitVec.ofInt_natCast]
    push_cast
    rfl
  rw [packArcs]
  simp only [List.getD_cons_zero, List.getD_cons_succ, hfirstInt, hsecondInt, hproduct]
  change checkInt ((first : ℤ) * 40 + second) >>= _ = _
  rw [hsum, ← hcast]
  rfl

theorem encodeComponents_eq_ok_iff (oid : Oid) :
    encodeComponents (oid.arcs.map (BitVec.ofNat 32)) = .ok buf ↔
      ∃ tmp, packArcs (oid.arcs.map (BitVec.ofNat 32)) = .ok tmp ∧ 0 < tmp.toInt ∧
        (∀ arc ∈ oid.rest, 0 < arc ∧ arc < 2 ^ 31) ∧
        buf = ⟨(tmp.toNat :: oid.rest).flatMap arcOctets, 0⟩ := by
  have hpos : (∀ component ∈ oid.rest.map (BitVec.ofNat 32), 0 < component.toInt) ↔
      ∀ arc ∈ oid.rest, 0 < arc ∧ arc < 2 ^ 31 := by
    rw [List.forall_mem_map]
    exact forall₂_congr fun arc hmem ↦ toInt_ofNat_pos_iff (oid.small_rest arc hmem)
  have hoctets : (oid.rest.map (BitVec.ofNat 32)).flatMap (fun component ↦ arcOctets component.toNat) =
      oid.rest.flatMap arcOctets := by
    rw [List.flatMap_map]
    refine List.flatMap_congr fun arc hmem ↦ ?_
    rw [BitVec.toNat_ofNat, Nat.mod_eq_of_lt (oid.small_rest arc hmem)]
  rw [encodeComponents, bind_eq_ok]
  refine exists_congr fun tmp ↦ and_congr_right fun _ ↦ ?_
  rw [bind_eq_ok]
  simp only [encodeOidComponent_eq_ok_iff]
  change (∃ buf', (0 < tmp.toInt ∧ buf' = _) ∧
    (oid.rest.map (BitVec.ofNat 32)).foldlM encodeOidComponent buf' = .ok buf) ↔ _
  simp only [foldlM_encodeOidComponent, hpos, hoctets]
  constructor
  · rintro ⟨_, ⟨htmp, rfl⟩, hrest, rfl⟩
    refine ⟨htmp, hrest, ?_⟩
    simp [Dbuf.put, Dbuf.new]
  · rintro ⟨htmp, hrest, rfl⟩
    refine ⟨_, ⟨htmp, rfl⟩, hrest, ?_⟩
    simp [Dbuf.put, Dbuf.new]

variable {tagno : BitVec 32}

theorem oidHeader_ok (dbuf : Dbuf) (cls : TagClass) (htag : 0 ≤ tagno.toInt) {size : ℕ}
    (hsize : size < 2 ^ 31) :
    ∃ octets, oidHeader dbuf cls tagno size = .ok (.Z_OK, dbuf.put octets) := by
  obtain ⟨tag, htag⟩ := putTag_of_nonneg dbuf cls .PRIMITIVE htag
  have hmsb : (BitVec.ofNat 32 size).msb = false := by
    refine msb_of_nonneg ?_
    rw [toInt_ofNat_of_lt hsize]
    exact not_lt.mpr (Int.natCast_nonneg size)
  obtain ⟨length, hlength⟩ := putLen_of_msb_false (dbuf.put tag) hmsb
  exact ⟨tag ++ length, bind_eq_ok.mpr ⟨_, htag, by rw [Dbuf.put_append]; exact hlength⟩⟩

theorem oidNode_of_ok (dbuf : Dbuf) (cls : TagClass) (htag : 0 ≤ tagno.toInt) {obj : List Char}
    {ids : List (BitVec 32)} (hids : oidConvert obj = .ok ids)
    (hbuf : encodeComponents ids = .ok buf) (hsize : buf.data.length < 2 ^ 31) :
    ∃ node, oidNode dbuf cls tagno obj = .ok node ∧ node.length = buf.data.length ∧
      buf.data <+: node.dbuf.data.drop node.dbuf.cursor := by
  obtain ⟨octets, hheader⟩ := oidHeader_ok dbuf cls htag hsize
  have hencoded : encodeOid dbuf cls tagno obj = .ok (.Z_OK, (dbuf.put octets).put buf.data) :=
    bind_eq_ok.mpr ⟨ids, hids, bind_eq_ok.mpr ⟨buf, hbuf, bind_eq_ok.mpr ⟨_, hheader, rfl⟩⟩⟩
  refine ⟨_, bind_eq_ok.mpr ⟨ids, hids, bind_eq_ok.mpr ⟨buf, hbuf, bind_eq_ok.mpr ⟨_, hheader,
    bind_eq_ok.mpr ⟨_, hencoded, rfl⟩⟩⟩⟩, ?_, ?_⟩
  · simp [Dbuf.put]
  · simp [Dbuf.put]

theorem Oid.arcs_ne_nil (oid : Oid) : oid.arcs ≠ [] := List.cons_ne_nil _ _

theorem Oid.arc_lt (oid : Oid) : ∀ arc ∈ oid.arcs, arc < 2 ^ 32 := by
  have hfirst := oid.first_le
  intro arc hmem
  rcases List.mem_cons.mp hmem with rfl | hmem
  · omega
  rcases List.mem_cons.mp hmem with rfl | hmem
  · exact oid.small_second
  · exact oid.small_rest arc hmem

variable {oid : Oid}

theorem decodeOid_components {tmp : BitVec 32} (htmp : 0 < tmp.toInt)
    (hfew : oid.arcs.length ≤ maxIds) (hrest : ∀ arc ∈ oid.rest, 0 < arc ∧ arc < 2 ^ 31)
    {dbuf : Dbuf}
    (hdata : (tmp.toNat :: oid.rest).flatMap arcOctets <+: dbuf.data.drop dbuf.cursor) :
    decodeOid dbuf ((tmp.toNat :: oid.rest).flatMap arcOctets).length =
      .ok (tmp.sdiv 40 :: tmp.srem 40 :: oid.rest.map (BitVec.ofNat 32)) := by
  have hmsb := msb_of_nonneg (not_lt.mpr htmp.le)
  rw [toInt_of_msb_false hmsb] at htmp
  have hne : ∀ component ∈ tmp.toNat :: oid.rest, component ≠ 0 := by
    refine List.forall_mem_cons.mpr ⟨by omega, fun arc hmem ↦ ?_⟩
    exact (hrest arc hmem).1.ne'
  rw [decodeOid_spec hne hdata, List.map_cons, List.foldlM_cons, BitVec.ofNat_toNat, BitVec.setWidth_eq]
  change (oid.rest.map (BitVec.ofNat 32)).foldlM storeArc [tmp.sdiv 40, tmp.srem 40] = _
  have hlength : 2 + oid.rest.length ≤ maxIds := by
    have hfew : oid.rest.length + 1 + 1 ≤ maxIds := hfew
    omega
  rw [foldlM_storeArc (List.cons_ne_nil _ _) (by simp [maxIds]), List.length_map]
  exact if_pos hlength

theorem decodeOid_oidNode (dbuf : Dbuf) (cls : TagClass) (htag : 0 ≤ tagno.toInt) {tmp : BitVec 32}
    (hfew : oid.arcs.length ≤ maxIds)
    (hpacked : packArcs (oid.arcs.map (BitVec.ofNat 32)) = .ok tmp) (htmp : 0 < tmp.toInt)
    (hrest : ∀ arc ∈ oid.rest, 0 < arc ∧ arc < 2 ^ 31) :
    ∃ node, oidNode dbuf cls tagno (dotted oid.arcs) = .ok node ∧
      decodeOid node.dbuf node.length =
        .ok (tmp.sdiv 40 :: tmp.srem 40 :: oid.rest.map (BitVec.ofNat 32)) := by
  have hconvert := oidConvert_dotted oid.arcs_ne_nil oid.arc_lt
  rw [if_pos hfew] at hconvert
  have hbuf := (encodeComponents_eq_ok_iff oid).mpr ⟨tmp, hpacked, htmp, hrest, rfl⟩
  have hsize : ((tmp.toNat :: oid.rest).flatMap arcOctets).length < 2 ^ 31 := by
    have hsmall : ∀ component ∈ tmp.toNat :: oid.rest, component < 2 ^ 31 :=
      List.forall_mem_cons.mpr ⟨toNat_lt_of_msb_false (msb_of_nonneg (not_lt.mpr htmp.le)),
        fun arc hmem ↦ (hrest arc hmem).2⟩
    have hle := length_flatMap_arcOctets hsmall
    have hfew : oid.rest.length + 1 + 1 ≤ 50 := hfew
    rw [List.length_cons] at hle
    omega
  obtain ⟨node, hnode, hlength, hdata⟩ := oidNode_of_ok dbuf cls htag hconvert hbuf hsize
  refine ⟨node, hnode, ?_⟩
  rw [hlength]
  exact decodeOid_components htmp hfew hrest hdata

/-- An object identifier comes back exactly if its arcs are encodable. -/
theorem oidRoundTrips_iff (dbuf : Dbuf) (cls : TagClass) {tagno : BitVec 32} (htag : 0 ≤ tagno.toInt)
    (oid : Oid) : OidRoundTrips dbuf cls tagno oid ↔ oid.Encodable := by
  have hconvert := oidConvert_dotted oid.arcs_ne_nil oid.arc_lt
  constructor
  · rintro ⟨node, ids, hnode, hdecoded, hids⟩
    obtain ⟨arcs, harcs, hrun⟩ := bind_eq_ok.mp hnode
    obtain ⟨buf, hbuf, -⟩ := bind_eq_ok.mp hrun
    have hfew : oid.arcs.length ≤ maxIds := by
      by_contra hmany
      rw [hconvert, if_neg hmany] at harcs
      cases harcs
    rw [hconvert, if_pos hfew, Except.ok.injEq] at harcs
    rw [← harcs] at hbuf
    obtain ⟨tmp, hpacked, htmp, hrest, -⟩ := (encodeComponents_eq_ok_iff oid).mp hbuf
    obtain ⟨node', hnode', hdecoded'⟩ := decodeOid_oidNode dbuf cls htag hfew hpacked htmp hrest
    obtain rfl := Except.ok.inj (hnode.symm.trans hnode')
    obtain rfl := Except.ok.inj (hdecoded.symm.trans hdecoded')
    -- the second arc comes back as a remainder
    have hsecond : oid.second < 40 := by
      have hremainder : (tmp.srem 40).toInt = oid.second := (List.cons.inj (List.cons.inj hids).2).1
      have hlt := Int.tmod_lt_of_pos tmp.toInt (show 0 < (40 : ℤ) by decide)
      rw [BitVec.toInt_srem] at hremainder
      change tmp.toInt.tmod 40 = _ at hremainder
      omega
    have hfirst := oid.first_le
    have hpack : packArcs (oid.arcs.map (BitVec.ofNat 32)) =
        .ok (BitVec.ofNat 32 (oid.first * 40 + oid.second)) := packArcs_of_lt hfirst hsecond _
    obtain rfl := Except.ok.inj (hpacked.symm.trans hpack)
    rw [toInt_ofNat_of_lt (by omega)] at htmp
    exact ⟨hsecond, by omega, fun arc hmem ↦ (hrest arc hmem).1, fun arc hmem ↦ (hrest arc hmem).2, hfew⟩
  · intro h
    have hfirst := oid.first_le
    have hsecond := h.second_lt
    have hpositive := h.packed_pos
    have hpack : packArcs (oid.arcs.map (BitVec.ofNat 32)) =
        .ok (BitVec.ofNat 32 (oid.first * 40 + oid.second)) := packArcs_of_lt hfirst hsecond _
    have hint : (BitVec.ofNat 32 (oid.first * 40 + oid.second)).toInt = oid.first * 40 + oid.second := by
      rw [toInt_ofNat_of_lt (by omega)]
      push_cast
      rfl
    obtain ⟨node, hnode, hdecoded⟩ := decodeOid_oidNode dbuf cls htag h.few hpack (by omega)
      fun arc hmem ↦ ⟨h.rest_pos arc hmem, h.rest_lt arc hmem⟩
    refine ⟨node, _, hnode, hdecoded, ?_⟩
    have hquotient : ((BitVec.ofNat 32 (oid.first * 40 + oid.second)).sdiv 40).toInt = oid.first := by
      rw [BitVec.toInt_sdiv, hint]
      change (((oid.first : ℤ) * 40 + oid.second).tdiv 40).bmod (2 ^ 32) = _
      rw [Int.tdiv_eq_ediv_of_nonneg (by omega), show ((oid.first : ℤ) * 40 + oid.second) / 40 = oid.first by omega]
      exact Int.bmod_eq_of_le (by omega) (by omega)
    have hremainder : ((BitVec.ofNat 32 (oid.first * 40 + oid.second)).srem 40).toInt = oid.second := by
      rw [BitVec.toInt_srem, hint]
      change ((oid.first : ℤ) * 40 + oid.second).tmod 40 = _
      rw [Int.tmod_eq_emod_of_nonneg (by omega)]
      omega
    have hrest : (oid.rest.map (BitVec.ofNat 32)).map BitVec.toInt = oid.rest.map fun arc : ℕ ↦ (arc : ℤ) := by
      rw [List.map_map]
      exact List.map_congr_left fun arc hmem ↦ toInt_ofNat_of_lt (h.rest_lt arc hmem)
    rw [List.map_cons, List.map_cons, hquotient, hremainder, hrest]
    rfl

theorem oidRoundTrips_protocol_iff : ∃ oid : Oid, oid.arcs = [1, 2, 840, 10003] ∧
    (OidRoundTrips .new .UNIVERSAL 6 oid ↔ oid.Encodable) :=
  ⟨⟨1, 2, [840, 10003], by decide, by decide, by decide, by decide⟩, rfl,
    oidRoundTrips_iff .new .UNIVERSAL (by decide) _⟩

theorem not_oidRoundTrips_of_run {dbuf : Dbuf} {cls : TagClass}
    (h : ∀ ids, (oidNode dbuf cls tagno (dotted oid.arcs) >>= fun node ↦ decodeOid node.dbuf node.length) =
      .ok ids → ids.map BitVec.toInt ≠ oid.arcs.map fun arc : ℕ ↦ (arc : ℤ)) :
    ¬OidRoundTrips dbuf cls tagno oid := by
  rintro ⟨node, ids, hnode, hdecoded, hids⟩
  exact h ids (bind_eq_ok.mpr ⟨node, hnode, hdecoded⟩) hids

/-- A second arc of 100 below 2 comes back under the first arc 4, and an arc 0 is not written at all. -/
theorem not_oidRoundTrips : ∃ large zero : Oid, large.arcs = [2, 100, 3] ∧ zero.arcs = [1, 2, 0] ∧
    (oidNode .new .UNIVERSAL 6 (dotted large.arcs) >>= decodeOidText) = .ok "4.20.3".toList ∧
    ¬OidRoundTrips .new .UNIVERSAL 6 large ∧ ¬OidRoundTrips .new .UNIVERSAL 6 zero := by
  refine ⟨⟨2, 100, [3], by decide, by decide, by decide, by decide⟩,
    ⟨1, 2, [0], by decide, by decide, by decide, by decide⟩, rfl, rfl, ?_, ?_, ?_⟩
  · decide +kernel
  · have hrun : (oidNode .new .UNIVERSAL 6 (dotted [2, 100, 3]) >>= fun node ↦
        decodeOid node.dbuf node.length) = .ok [4, 20, 3] := by
      decide +kernel
    refine not_oidRoundTrips_of_run fun ids hids ↦ ?_
    obtain rfl := Except.ok.inj (hrun.symm.trans hids)
    decide
  · have hrun : (oidNode .new .UNIVERSAL 6 (dotted [1, 2, 0]) >>= fun node ↦
        decodeOid node.dbuf node.length) = .error .uninitialized := by
      decide +kernel
    refine not_oidRoundTrips_of_run fun ids hids ↦ ?_
    cases hrun.symm.trans hids

end Cheshire.Zpdu
