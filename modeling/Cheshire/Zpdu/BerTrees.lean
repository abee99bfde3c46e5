import Cheshire.Zpdu.ObjectIdentifiers

/-!
# Trees of BER values

Before a unit is sent, the tree of its nodes is walked twice: the first walk adds up the lengths and puts
tag and length into the buffers, the second one writes the buffers one behind the other.
-/

namespace Cheshire.Zpdu

/-- A pointer to an `ASN_NODE`, with what its `head` and its `next` lead to. -/
inductive AsnTree where
  | null
  | node (cls : TagClass) (type : TagForm) (tagno : BitVec 32) (dbuf : List UInt8) (length : ℤ)
      (head next : AsnTree)
deriving DecidableEq

def AsnTree.next : AsnTree → AsnTree
  | .null => .null
  | .node _ _ _ _ _ _ next => next

def AsnTree.withNext : AsnTree → AsnTree → AsnTree
  | .null, _ => .null
  | .node cls type tagno dbuf length head _, next => .node cls type tagno dbuf length head next

/-- What follows a step that has not returned an error. -/
def onSuccess {α β : Type} (step : Exec (Option α)) (next : α → Exec (Option β)) : Exec (Option β) := do
  (← step).elim (.ok none) next

/-- `PutTAG` and `PutLEN` -/
def putHeader (dbuf : List UInt8) (cls : TagClass) (form : TagForm) (tagno : BitVec 32) (length : ℤ) :
    Exec (Option (List UInt8)) := do
  let tagged ← putTag ⟨dbuf, 0⟩ cls form tagno
  if tagged.1 ≠ .Z_OK then .ok none
  else do
    let header ← putLen tagged.2 (BitVec.ofInt 32 length)
    .ok (if header.1 = .Z_OK then some header.2.data else none)

section

variable (leaf : TagClass → BitVec 32 → List UInt8 → ℤ → Exec (Option (List UInt8 × ℤ)))

/-- `for (child = p->head; child != NULL; child = child->next)`, which adds the lengths to `total`.  A
value below 0 is an error.  `leaf` is the branch for primitive nodes. -/
def lengthNodes : AsnTree → ℤ → Exec (Option (ℤ × AsnTree))
  | .null, total => .ok (some (total, .null))
  | .node cls .PRIMITIVE tagno dbuf length head next, total =>
    onSuccess (leaf cls tagno dbuf length) fun own ↦
    if own.2 < 0 then .ok none
    else do
      let total ← checkInt (total + own.2)
      onSuccess (lengthNodes next total) fun rest ↦
        .ok (some (rest.1, .node cls .PRIMITIVE tagno own.1 own.2 head rest.2))
  | .node cls .CONSTRUCTED tagno dbuf _ head next, total =>
    onSuccess (lengthNodes head 0) fun children ↦
    onSuccess (putHeader dbuf cls .CONSTRUCTED tagno children.1) fun dbuf ↦ do
      let length ← checkInt (children.1 + dbuf.length)
      let total ← checkInt (total + length)
      onSuccess (lengthNodes next total) fun rest ↦
        .ok (some (rest.1, .node cls .CONSTRUCTED tagno dbuf length children.2 rest.2))

/-- The walk from a node: its siblings are not looked at. -/
def lengthTree (p : AsnTree) : Exec (Option (ℤ × AsnTree)) :=
  onSuccess (lengthNodes leaf (p.withNext .null) 0) fun root ↦
    .ok (some (root.1, root.2.withNext p.next))

end

/-- `LengthAsnTree`: the buffer of a primitive node has tag and length already. -/
def lengthAsnTree : AsnTree → Exec (Option (ℤ × AsnTree)) :=
  lengthTree fun _ _ dbuf length ↦ .ok (some (dbuf, length))

/-- `LengthAsnTree2`: the buffer of a primitive node has its content only. -/
def lengthAsnTree2 : AsnTree → Exec (Option (ℤ × AsnTree)) :=
  lengthTree fun cls tagno dbuf length ↦
    onSuccess (putHeader [] cls .PRIMITIVE tagno length) fun header ↦
      .ok (some (header ++ dbuf, (header ++ dbuf).length))

/-- What `BerAsnTree` writes for a node and the siblings behind it. -/
def berNodes : AsnTree → List UInt8
  | .null => []
  | .node _ .PRIMITIVE _ dbuf _ _ next => dbuf ++ berNodes next
  | .node _ .CONSTRUCTED _ dbuf _ head next => dbuf ++ berNodes head ++ berNodes next

def serializeAsnTree (p : AsnTree) : Option (List UInt8) :=
  if p = .null then none else some (berNodes (p.withNext .null))

/-- `EncodePDU2`, where `node` is what `EncodePDU` returns. -/
def encodePDU2 (node : AsnTree) : Exec (Option (List UInt8)) :=
  if node = .null then .ok none
  else onSuccess (lengthAsnTree node) fun root ↦ .ok (serializeAsnTree root.2)

/-- BER values, one behind the other. -/
inductive BerValues where
  | nil
  | primitive (cls : TagClass) (tagno : BitVec 32) (content : List UInt8) (next : BerValues)
  | constructed (cls : TagClass) (tagno : BitVec 32) (children next : BerValues)

/-- Identifier octets. -/
def tagOctets (cls : TagClass) (form : TagForm) (tagno : ℕ) : List UInt8 :=
  if tagno < 31 then [UInt8.ofNat (cls.code <<< 6 ||| form.code <<< 5 ||| tagno &&& 0x1F)]
  else UInt8.ofNat (cls.code <<< 6 ||| form.code <<< 5 ||| 0x1F) :: arcOctets tagno

/-- Length octets, of the fewest that there can be. -/
def lenOctets (length : ℕ) : List UInt8 :=
  if length < 128 then [UInt8.ofNat length]
  else (UInt8.ofNat (Nat.digits 256 length).length ||| 0x80) ::
    ((Nat.digits 256 length).map UInt8.ofNat).reverse

def headerOctets (cls : TagClass) (form : TagForm) (tagno length : ℕ) : List UInt8 :=
  tagOctets cls form tagno ++ lenOctets length

namespace BerValues

def octets : BerValues → List UInt8
  | .nil => []
  | .primitive cls tagno content next =>
    headerOctets cls .PRIMITIVE tagno.toNat content.length ++ content ++ octets next
  | .constructed cls tagno children next =>
    headerOctets cls .CONSTRUCTED tagno.toNat (octets children).length ++ octets children ++ octets next

/-- No tag number is negative, and no primitive value has the tag of the end of contents. -/
def Tagged : BerValues → Prop
  | .nil => True
  | .primitive cls tagno _ next => 0 ≤ tagno.toInt ∧ ¬(tagno = 0 ∧ cls = .UNIVERSAL) ∧ Tagged next
  | .constructed _ tagno children next => 0 ≤ tagno.toInt ∧ Tagged children ∧ Tagged next

/-- The nodes of values, by what the node of a primitive value has and the length in a constructed one. -/
def tree (leaf : TagClass → BitVec 32 → List UInt8 → List UInt8) (size : ℕ → ℤ) : BerValues → AsnTree
  | .nil => .null
  | .primitive cls tagno content next =>
    .node cls .PRIMITIVE tagno (leaf cls tagno content) (leaf cls tagno content).length .null
      (tree leaf size next)
  | .constructed cls tagno children next =>
    .node cls .CONSTRUCTED tagno [] (size (octets children).length) (tree leaf size children)
      (tree leaf size next)

/-- The nodes as the encoders leave them. -/
def built : BerValues → AsnTree :=
  tree (fun cls tagno content ↦ headerOctets cls .PRIMITIVE tagno.toNat content.length ++ content) fun _ ↦ 0

/-- The nodes when the lengths were added up. -/
def sized : BerValues → AsnTree
  | .nil => .null
  | .primitive cls tagno content next =>
    let dbuf := headerOctets cls .PRIMITIVE tagno.toNat content.length ++ content
    .node cls .PRIMITIVE tagno dbuf dbuf.length .null (sized next)
  | .constructed cls tagno children next =>
    let dbuf := headerOctets cls .CONSTRUCTED tagno.toNat (octets children).length
    .node cls .CONSTRUCTED tagno dbuf ((octets children).length + dbuf.length : ℕ) (sized children)
      (sized next)

/-- The nodes as they are decoded. -/
def received : BerValues → AsnTree := tree (fun _ _ content ↦ content) fun length ↦ length

end BerValues

theorem eq_map_ofNat {groups : List UInt8} {digits : List ℕ} (h : groups.map UInt8.toNat = digits) :
    groups = digits.map UInt8.ofNat := by
  have hinverse : UInt8.ofNat ∘ UInt8.toNat = id := funext fun octet ↦ UInt8.ofNat_toNat
  rw [← h, List.map_map, hinverse, List.map_id]

theorem putTag_eq (dbuf : Dbuf) (cls : TagClass) (form : TagForm) {tagno : BitVec 32}
    (h : 0 ≤ tagno.toInt) :
    putTag dbuf cls form tagno = .ok (.Z_OK, dbuf.put (tagOctets cls form tagno.toNat)) := by
  have hmsb := msb_of_nonneg (not_lt.mpr h)
  rw [putTag, if_neg (not_lt.mpr h), tagOctets, toInt_of_msb_false hmsb]
  by_cases hshort : tagno.toNat < 31
  · rw [if_pos (by exact_mod_cast hshort), if_pos hshort]
  · obtain ⟨data, hdata, hdigits⟩ := @cutGroups_ok 7 20 (by decide) (by decide) (by decide) _ hmsb
    rw [if_neg (by exact_mod_cast hshort), if_neg hshort, hdata, arcOctets, eq_map_ofNat hdigits]
    rfl

theorem putLen_eq (dbuf : Dbuf) {length : ℕ} (h : length ≤ INT_MAX) :
    putLen dbuf (BitVec.ofInt 32 length) = .ok (.Z_OK, dbuf.put (lenOctets length)) := by
  rw [INT_MAX] at h
  have hnat : (BitVec.ofInt 32 length).toNat = length := by
    rw [BitVec.ofInt_natCast, BitVec.toNat_ofNat]
    exact Nat.mod_eq_of_lt (by omega)
  have hmsb : (BitVec.ofInt 32 length).msb = false := by
    rw [BitVec.msb_eq_decide, decide_eq_false_iff_not, hnat]
    omega
  rw [putLen, toInt_of_msb_false hmsb, hnat, if_neg (by omega), lenOctets]
  by_cases hshort : length < 128
  · have hoctet : UInt8.ofBitVec ((BitVec.ofInt 32 length &&& 0x7F).setWidth 8) = UInt8.ofNat length := by
      apply UInt8.toNat_inj.mp
      have hmask := @toNat_group 7 (by decide) (BitVec.ofInt 32 length)
      rw [hnat, Nat.mod_eq_of_lt (by simpa using hshort)] at hmask
      exact hmask.trans (UInt8.toNat_ofNat_of_lt' (hshort.trans (by decide))).symm
    rw [if_pos (by exact_mod_cast hshort), if_pos hshort, hoctet]
  · obtain ⟨data, hdata, hdigits⟩ := @cutGroups_ok 8 6 (by decide) le_rfl (by decide) _ hmsb
    rw [hnat] at hdigits
    have hlength : data.length = (Nat.digits 256 length).length := by
      rw [← List.length_map (f := UInt8.toNat), hdigits]
      rfl
    rw [if_neg (by exact_mod_cast hshort), if_neg hshort, hdata, ← hlength]
    have hgroups := eq_map_ofNat hdigits
    rw [hgroups]
    simp [pure, bind, Except.pure, Except.bind]

theorem putHeader_eq (dbuf : List UInt8) (cls : TagClass) (form : TagForm) {tagno : BitVec 32}
    (htagno : 0 ≤ tagno.toInt) {length : ℕ} (hlength : length ≤ INT_MAX) :
    putHeader dbuf cls form tagno length =
      .ok (some (dbuf ++ headerOctets cls form tagno.toNat length)) := by
  rw [putHeader, putTag_eq _ cls form htagno]
  simp only [bind, Except.bind, ne_eq, not_true_eq_false, if_false, putLen_eq _ hlength, if_true]
  rw [← Dbuf.put_append]
  rfl

section

variable {leaf : TagClass → BitVec 32 → List UInt8 → ℤ → Exec (Option (List UInt8 × ℤ))}
  {place : TagClass → BitVec 32 → List UInt8 → List UInt8} {size : ℕ → ℤ}

/-- The branch for primitive nodes leaves a buffer with the whole value. -/
def WritesLeaves (leaf : TagClass → BitVec 32 → List UInt8 → ℤ → Exec (Option (List UInt8 × ℤ)))
    (place : TagClass → BitVec 32 → List UInt8 → List UInt8) : Prop :=
  ∀ cls tagno content, 0 ≤ tagno.toInt → content.length ≤ INT_MAX →
    leaf cls tagno (place cls tagno content) (place cls tagno content).length =
      .ok (some (headerOctets cls .PRIMITIVE tagno.toNat content.length ++ content,
        (headerOctets cls .PRIMITIVE tagno.toNat content.length ++ content).length))

theorem lengthNodes_tree (hleaf : WritesLeaves leaf place) {values : BerValues} (htags : values.Tagged)
    {total : ℕ} (hsize : total + values.octets.length ≤ INT_MAX) :
    lengthNodes leaf (values.tree place size) total =
      .ok (some ((total + values.octets.length : ℕ), values.sized)) := by
  induction values generalizing total with
  | nil => rfl
  | primitive cls tagno content next ih =>
    obtain ⟨htag, -, htags⟩ := htags
    rw [BerValues.octets, List.length_append, ← Nat.add_assoc] at hsize ⊢
    have hcontent : content.length ≤ INT_MAX := by
      rw [List.length_append] at hsize
      omega
    rw [BerValues.tree, lengthNodes, hleaf cls tagno content htag hcontent]
    simp only [onSuccess, bind, Except.bind, Option.elim]
    rw [if_neg (by omega), ← Nat.cast_add, checkInt_natCast (by omega)]
    simp only [ih htags hsize, BerValues.sized]
  | constructed cls tagno children next ihChildren ihNext =>
    obtain ⟨htag, hchildren, htags⟩ := htags
    rw [BerValues.octets, List.length_append, ← Nat.add_assoc, List.length_append,
      Nat.add_comm (headerOctets ..).length] at hsize ⊢
    have hhead := @ihChildren hchildren 0 (by omega)
    rw [Nat.cast_zero, Nat.zero_add] at hhead
    rw [BerValues.tree, lengthNodes, hhead]
    simp only [onSuccess, bind, Except.bind, Option.elim]
    rw [putHeader_eq _ _ _ htag (by omega), List.nil_append]
    simp only
    rw [← Nat.cast_add, checkInt_natCast (by omega)]
    simp only
    rw [← Nat.cast_add, checkInt_natCast (by omega)]
    simp only [ihNext htags hsize, BerValues.sized]

theorem berNodes_sized (values : BerValues) : berNodes values.sized = values.octets := by
  induction values with
  | nil => rfl
  | primitive cls tagno content next ih => rw [BerValues.sized, berNodes, ih, BerValues.octets]
  | constructed cls tagno children next ihChildren ihNext =>
    rw [BerValues.sized, berNodes, ihChildren, ihNext, BerValues.octets]

end

/-- The value at the front, without those behind it. -/
def BerValues.Single : BerValues → Prop
  | .nil => False
  | .primitive _ _ _ next => next = .nil
  | .constructed _ _ _ next => next = .nil

variable {value : BerValues}

theorem withNext_null (size : ℕ → ℤ) (place : TagClass → BitVec 32 → List UInt8 → List UInt8)
    (h : value.Single) : (value.tree place size).withNext .null = value.tree place size ∧
      (value.tree place size).next = .null ∧ value.tree place size ≠ .null ∧
      value.sized.withNext .null = value.sized ∧ value.sized ≠ .null := by
  cases value with
  | nil => exact h.elim
  | primitive cls tagno content next =>
    cases h
    exact ⟨rfl, rfl, nofun, rfl, nofun⟩
  | constructed cls tagno children next =>
    cases h
    exact ⟨rfl, rfl, nofun, rfl, nofun⟩

theorem lengthTree_tree
    {leaf : TagClass → BitVec 32 → List UInt8 → ℤ → Exec (Option (List UInt8 × ℤ))}
    {place : TagClass → BitVec 32 → List UInt8 → List UInt8} (hleaf : WritesLeaves leaf place)
    (size : ℕ → ℤ) (h : value.Single) (htags : value.Tagged)
    (hsize : value.octets.length ≤ INT_MAX) :
    lengthTree leaf (value.tree place size) = .ok (some (value.octets.length, value.sized)) := by
  obtain ⟨halone, hnext, -, hsized, -⟩ := withNext_null size place h
  have hwalk := @lengthNodes_tree _ _ size hleaf _ htags 0 (by rwa [Nat.zero_add])
  rw [Nat.cast_zero, Nat.zero_add] at hwalk
  rw [lengthTree, halone, hwalk, hnext]
  simp only [onSuccess, bind, Except.bind, Option.elim, hsized]

theorem serializeAsnTree_sized (h : value.Single) :
    serializeAsnTree value.sized = some value.octets := by
  obtain ⟨-, -, -, hsized, hne⟩ := withNext_null (fun _ ↦ 0) (fun _ _ content ↦ content) h
  rw [serializeAsnTree, if_neg hne, hsized, berNodes_sized]

theorem writesLeaves_lengthAsnTree :
    WritesLeaves (fun _ _ dbuf length ↦ .ok (some (dbuf, length))) fun cls tagno content ↦
      headerOctets cls .PRIMITIVE tagno.toNat content.length ++ content := fun _ _ _ _ _ ↦ rfl

theorem encodePDU2_built (h : value.Single) (htags : value.Tagged)
    (hsize : value.octets.length ≤ INT_MAX) : encodePDU2 value.built = .ok (some value.octets) := by
  have hne : value.built ≠ .null := (withNext_null _ _ h).2.2.1
  rw [encodePDU2, if_neg hne, lengthAsnTree, BerValues.built,
    lengthTree_tree writesLeaves_lengthAsnTree _ h htags hsize]
  simp only [onSuccess, bind, Except.bind, Option.elim, serializeAsnTree_sized h]

theorem writesLeaves_lengthAsnTree2 :
    WritesLeaves (fun cls tagno dbuf length ↦
      onSuccess (putHeader [] cls .PRIMITIVE tagno length) fun header ↦
        .ok (some (header ++ dbuf, (header ++ dbuf).length))) fun _ _ content ↦ content := by
  intro cls tagno content htag hlength
  simp only [putHeader_eq _ _ _ htag hlength, onSuccess, bind, Except.bind, Option.elim, List.nil_append]

theorem lengthAsnTree2_received (h : value.Single) (htags : value.Tagged)
    (hsize : value.octets.length ≤ INT_MAX) :
    lengthAsnTree2 value.received = .ok (some (value.octets.length, value.sized)) :=
  lengthTree_tree writesLeaves_lengthAsnTree2 _ h htags hsize

end Cheshire.Zpdu
