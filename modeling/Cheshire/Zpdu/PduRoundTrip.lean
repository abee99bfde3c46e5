import Cheshire.Zpdu.PduStream

/-!
# Units sent and received

What the walks over a tree have written is read as the same tree, and the reading stops behind it.
-/

namespace Cheshire.Zpdu

theorem headerOctets_pos (cls : TagClass) (form : TagForm) (tagno length : ℕ) :
    0 < (headerOctets cls form tagno length).length := by
  rw [headerOctets, tagOctets]
  split_ifs <;> simp

def BerValues.nodes : BerValues → ℕ
  | .nil => 0
  | .primitive _ _ _ next => nodes next + 1
  | .constructed _ _ children next => nodes children + nodes next + 1

theorem BerValues.nodes_le_length_octets (values : BerValues) : values.nodes ≤ values.octets.length := by
  induction values with
  | nil => exact le_rfl
  | primitive cls tagno content next ih =>
    have hpos := headerOctets_pos cls .PRIMITIVE tagno.toNat content.length
    simp only [nodes, octets, List.length_append]
    omega
  | constructed cls tagno children next ihChildren ihNext =>
    have hpos := headerOctets_pos cls .CONSTRUCTED tagno.toNat children.octets.length
    simp only [nodes, octets, List.length_append]
    omega

theorem BerValues.octets_pos {values : BerValues} (h : values ≠ .nil) : 0 < values.octets.length := by
  have hnodes : 0 < values.nodes := by
    cases values with
    | nil => exact absurd rfl h
    | primitive | constructed => exact Nat.succ_pos _
  exact hnodes.trans_le values.nodes_le_length_octets

theorem getPDUFromStream_header (fuel : ℕ) (size : ℤ) {cls : TagClass} {form : TagForm} {tagno : BitVec 32}
    (h : ¬(tagno = 0 ∧ cls = .UNIVERSAL ∧ form = .PRIMITIVE)) (length : ℕ) (rest : List UInt8) :
    getPDUFromStream (fuel + 1) size (headerOctets cls form tagno.toNat length ++ rest) =
      getValue (fun len stmp runningSize stream ↦
          childLoop (getPDUFromStream fuel) len fuel len stmp runningSize stream) size
        ⟨cls, form, tagno, (tagOctets cls form tagno.toNat).length⟩ (lenOctets length ++ rest) := by
  rw [getPDUFromStream, headerOctets, List.append_assoc, getTagFromStream_tagOctets cls form h,
    Option.elim_some]
  exact if_neg h

theorem getPDUFromStream_primitive (fuel : ℕ) (size : ℤ) {cls : TagClass} {tagno : BitVec 32}
    (h : ¬(tagno = 0 ∧ cls = .UNIVERSAL)) {content : List UInt8}
    (hsize : (headerOctets cls .PRIMITIVE tagno.toNat content.length ++ content).length ≤ INT_MAX)
    (rest : List UInt8) :
    getPDUFromStream (fuel + 1) size
        (headerOctets cls .PRIMITIVE tagno.toNat content.length ++ content ++ rest) =
      .ok ⟨.node cls .PRIMITIVE tagno content content.length .null .null,
        (headerOctets cls .PRIMITIVE tagno.toNat content.length ++ content).length, rest⟩ := by
  have hpos := headerOctets_pos cls .PRIMITIVE tagno.toNat content.length
  rw [List.append_assoc, getPDUFromStream_header fuel size (fun hend ↦ h ⟨hend.1, hend.2.1⟩), getValue]
  rw [headerOctets, List.length_append] at hpos
  rw [headerOctets, List.append_assoc, List.length_append, List.length_append] at hsize ⊢
  have hread : readContent content.length (content ++ rest) = .ok content := by
    rw [readContent]
    split_ifs with hsome
    · rw [← Nat.cast_succ, checkInt_natCast (by omega)]
      simp [bind, Except.bind]
    · rw [List.length_eq_zero_iff.mp (show content.length = 0 by omega)]
  simp only [getLenFromStream_lenOctets _ (show content.length ≤ INT_MAX by omega), bind, Except.bind, if_true]
  rw [← Nat.cast_add, checkInt_natCast (by omega)]
  simp only [hread]
  rw [← Nat.cast_add, checkInt_natCast (by omega)]
  simp [Nat.add_assoc]

theorem getPDUFromStream_constructed {fuel : ℕ} (size : ℤ) {cls : TagClass} {tagno : BitVec 32}
    {children : BerValues}
    (hsize : (headerOctets cls .CONSTRUCTED tagno.toNat children.octets.length ++
      children.octets).length ≤ INT_MAX) (rest : List UInt8)
    (hchildren : children ≠ .nil → ∀ stmp runningSize : ℕ, runningSize + children.octets.length ≤ INT_MAX →
      childLoop (getPDUFromStream fuel) children.octets.length fuel children.octets.length stmp runningSize
          (children.octets ++ rest) =
        .ok (some children.received, (runningSize + children.octets.length : ℕ), rest)) :
    getPDUFromStream (fuel + 1) size
        (headerOctets cls .CONSTRUCTED tagno.toNat children.octets.length ++ children.octets ++ rest) =
      .ok ⟨.node cls .CONSTRUCTED tagno [] children.octets.length children.received .null,
        (headerOctets cls .CONSTRUCTED tagno.toNat children.octets.length ++ children.octets).length,
        rest⟩ := by
  rw [List.append_assoc, getPDUFromStream_header fuel size (fun hend ↦ by cases hend.2.2), getValue]
  rw [headerOctets, List.append_assoc, List.length_append, List.length_append] at hsize ⊢
  simp only [getLenFromStream_lenOctets _ (show children.octets.length ≤ INT_MAX by omega), bind, Except.bind,
    reduceCtorEq, if_false]
  rw [← Nat.cast_add, checkInt_natCast (by omega)]
  by_cases hnil : children = .nil
  · subst hnil
    rfl
  · have hpos := BerValues.octets_pos hnil
    simp only
    rw [if_neg (by omega), hchildren hnil _ _ (by omega), Nat.add_assoc]
    rfl

variable {fuel : ℕ}

/-- One pass of the loop, where a child was read that its siblings follow. -/
theorem childLoop_step {get : ℤ → List UInt8 → Exec Received} {front rest : List UInt8}
    {next : BerValues} {node : AsnTree}
    (hget : ∀ size, get size (front ++ (next.octets ++ rest)) = .ok ⟨node, front.length, next.octets ++ rest⟩)
    (hnode : node ≠ .null ∧ node.withNext .null = node) (hpos : 0 < front.length)
    {len runningSize : ℕ} (stmp : ℤ) (hsize : runningSize + (front ++ next.octets).length ≤ INT_MAX)
    (hnext : next ≠ .nil → childLoop get len fuel next.octets.length front.length
      (runningSize + front.length : ℕ) (next.octets ++ rest) =
        .ok (some next.received, (runningSize + front.length + next.octets.length : ℕ), rest)) :
    childLoop get len (fuel + 1) (front ++ next.octets).length stmp runningSize
        (front ++ next.octets ++ rest) =
      .ok (some (node.withNext next.received), (runningSize + (front ++ next.octets).length : ℕ), rest) := by
  rw [List.length_append] at hsize ⊢
  have hleft : ((front.length + next.octets.length : ℕ) : ℤ) - front.length = next.octets.length := by
    omega
  rw [List.append_assoc, childLoop, hget]
  simp only [bind, Except.bind]
  rw [← Nat.cast_add, checkInt_natCast (by omega)]
  simp only [hnode.1, if_false]
  rw [leftOver, if_pos (by omega), hleft, checkInt_natCast (by omega)]
  simp only
  by_cases hnil : next = .nil
  · subst hnil
    have hrest : BerValues.nil.received = .null := rfl
    rw [if_pos ⟨by omega, le_rfl⟩, hrest, hnode.2]
    rfl
  · have hmore := BerValues.octets_pos hnil
    rw [if_neg (by omega), hnext hnil, Nat.add_assoc]
    rfl

/-- The loop over the children reads them all and stops behind them. -/
theorem childLoop_octets {values : BerValues} (hne : values ≠ .nil) (htags : values.Tagged)
    {depth : ℕ} (hdepth : values.nodes ≤ depth) (hfuel : values.nodes ≤ fuel) (len : ℕ) (stmp : ℤ)
    {runningSize : ℕ} (hsize : runningSize + values.octets.length ≤ INT_MAX) (rest : List UInt8) :
    childLoop (getPDUFromStream depth) len fuel values.octets.length stmp runningSize
        (values.octets ++ rest) =
      .ok (some values.received, (runningSize + values.octets.length : ℕ), rest) := by
  induction values generalizing depth fuel len stmp runningSize rest with
  | nil => exact absurd rfl hne
  | primitive cls tagno content next ih =>
    obtain ⟨-, htag, htags⟩ := htags
    obtain ⟨depth, rfl⟩ := Nat.exists_eq_add_of_lt (Nat.lt_of_succ_le hdepth)
    obtain ⟨fuel, rfl⟩ := Nat.exists_eq_add_of_lt (Nat.lt_of_succ_le hfuel)
    have hpos := headerOctets_pos cls .PRIMITIVE tagno.toNat content.length
    rw [BerValues.octets, List.length_append] at hsize
    have hget (size : ℤ) := @getPDUFromStream_primitive (next.nodes + depth) size cls tagno htag content
      (by omega) (next.octets ++ rest)
    refine childLoop_step hget ⟨by simp, rfl⟩ ?_ stmp ?_ fun hnext ↦ ?_
    · rw [List.length_append]
      omega
    · rwa [List.length_append]
    · exact ih hnext htags (by omega) (by omega) len _ (by omega) rest
  | constructed cls tagno children next ihChildren ihNext =>
    obtain ⟨-, hchildren, htags⟩ := htags
    rw [BerValues.nodes] at hdepth hfuel
    obtain ⟨depth, rfl⟩ := Nat.exists_eq_add_of_lt (Nat.lt_of_succ_le hdepth)
    obtain ⟨fuel, rfl⟩ := Nat.exists_eq_add_of_lt (Nat.lt_of_succ_le hfuel)
    have hpos := headerOctets_pos cls .CONSTRUCTED tagno.toNat children.octets.length
    rw [BerValues.octets, List.length_append] at hsize
    have hget (size : ℤ) := @getPDUFromStream_constructed (children.nodes + next.nodes + depth) size cls
      tagno children (by omega) (next.octets ++ rest) fun hsome inner running hrunning ↦
        ihChildren hsome hchildren (by omega) (by omega) _ inner hrunning _
    refine childLoop_step hget ⟨by simp, rfl⟩ ?_ stmp ?_ fun hnext ↦ ?_
    · rw [List.length_append]
      omega
    · rwa [List.length_append]
    · exact ihNext hnext htags (by omega) (by omega) len _ (by omega) rest

/-- `dbuf->max` after pieces of these sizes were put behind `size` octets. -/
def maxAfter : List ℕ → ℕ → ℕ → ℕ
  | [], _, max => max
  | piece :: pieces, size, max =>
    maxAfter pieces (size + piece) (if max < size + piece then 2 * max + piece else max)

theorem maxAfter_le {pieces : List ℕ} {size max total : ℕ} (hsum : size + pieces.sum = total)
    (hmax : max ≤ 3 * total + 100) : maxAfter pieces size max ≤ 3 * total + 100 := by
  induction pieces generalizing size max with
  | nil => exact hmax
  | cons piece pieces ih =>
    rw [List.sum_cons] at hsum
    apply ih
    · omega
    · split <;> omega

/-- One value that can be sent: the buffer that holds its octets is counted in an `int`, however it
grew. -/
structure BerUnit where
  value : BerValues
  single : value.Single
  tagged : value.Tagged
  room : 3 * value.octets.length + 100 ≤ INT_MAX

theorem BerUnit.short (unit : BerUnit) : unit.value.octets.length ≤ INT_MAX := by
  have hroom := unit.room
  omega

theorem BerUnit.maxAfter_le (unit : BerUnit) {pieces : List ℕ}
    (hsum : pieces.sum = unit.value.octets.length) : maxAfter pieces 0 100 ≤ INT_MAX :=
  (Zpdu.maxAfter_le (by rw [Nat.zero_add, hsum]) (by omega)).trans unit.room

theorem getPDU_octets (unit : BerUnit) (rest : List UInt8) :
    getPDU (unit.value.octets ++ rest) =
      .ok ⟨unit.value.received, unit.value.octets.length, rest⟩ := by
  obtain ⟨value, hsingle, htags, hroom⟩ := unit
  have hsize : value.octets.length ≤ INT_MAX := by omega
  have hnodes := value.nodes_le_length_octets
  simp only [getPDU, List.length_append]
  cases value with
  | nil => exact hsingle.elim
  | primitive cls tagno content next =>
    cases hsingle
    simp only [BerValues.octets, List.append_nil] at hsize ⊢
    exact getPDUFromStream_primitive _ 0 htags.2.1 hsize rest
  | constructed cls tagno children next =>
    cases hsingle
    simp only [BerValues.octets, BerValues.nodes, List.append_nil] at hsize hnodes ⊢
    refine getPDUFromStream_constructed 0 hsize rest fun hsome stmp running hrunning ↦ ?_
    exact childLoop_octets hsome htags.2.1 (by omega) (by omega) _ stmp hrunning rest

/-- A unit that was built is sent as its octets, of which the first walk returns the number, and whatever
comes behind them they are read as the same tree. -/
theorem pdu_roundTrip (unit : BerUnit) (rest : List UInt8) :
    (∃ sized, lengthAsnTree unit.value.built = .ok (some ((unit.value.octets.length : ℤ), sized))) ∧
      encodePDU2 unit.value.built = .ok (some unit.value.octets) ∧
      getPDU (unit.value.octets ++ rest) =
        .ok ⟨unit.value.received, unit.value.octets.length, rest⟩ :=
  ⟨⟨_, lengthTree_tree writesLeaves_lengthAsnTree _ unit.single unit.tagged unit.short⟩,
    encodePDU2_built unit.single unit.tagged unit.short, getPDU_octets unit rest⟩

/-- A constructed value with a long tag number, a primitive one and an empty one. -/
def nestedUnit : BerUnit where
  value := .constructed .BER_CONTEXT 200 (.primitive .UNIVERSAL 4 [0x41, 0x42]
    (.constructed .APPLICATION 1 .nil .nil)) .nil
  single := rfl
  tagged := ⟨by decide, ⟨by decide, by decide, by decide, trivial, trivial⟩, trivial⟩
  room := by decide +kernel

theorem pdu_roundTrip_nested :
    encodePDU2 nestedUnit.value.built =
        .ok (some [0xBF, 0x81, 0x48, 0x06, 0x04, 0x02, 0x41, 0x42, 0x61, 0x00]) ∧
      getPDU (nestedUnit.value.octets ++ [0x02]) = .ok ⟨nestedUnit.value.received, 10, [0x02]⟩ := by
  obtain ⟨-, hsent, hread⟩ := pdu_roundTrip nestedUnit [0x02]
  exact ⟨hsent, hread⟩

/-- `ReceivePDU` gives the octets back that were sent. -/
theorem receivePDU_octets (unit : BerUnit) (rest : List UInt8) :
    receivePDU (unit.value.octets ++ rest) = .ok (some unit.value.octets, rest) := by
  have hne : unit.value.received ≠ .null := (withNext_null _ _ unit.single).2.2.1
  rw [receivePDU, getPDU_octets]
  simp only [bind, Except.bind, if_neg hne, onSuccess,
    lengthAsnTree2_received unit.single unit.tagged unit.short, Option.elim,
    serializeAsnTree_sized unit.single]

theorem receivePDU_octets_nested : receivePDU (nestedUnit.value.octets ++ [0x02]) =
    .ok (some [0xBF, 0x81, 0x48, 0x06, 0x04, 0x02, 0x41, 0x42, 0x61, 0x00], [0x02]) :=
  receivePDU_octets nestedUnit [0x02]

/-- The run returns what is described, unless a size does not fit in an `int`. -/
def Behaves {α : Type} (run : Exec α) (post : α → Prop) : Prop :=
  (∃ result, run = .ok result ∧ post result) ∨ run = .error .signedOverflow

theorem Behaves.bind {α β : Type} {run : Exec α} {next : α → Exec β} {post : α → Prop} {post' : β → Prop}
    (h : Behaves run post) (hnext : ∀ result, post result → Behaves (next result) post') :
    Behaves (run >>= next) post' := by
  rcases h with ⟨result, rfl, hpost⟩ | rfl
  · exact hnext result hpost
  · exact .inr rfl

theorem behaves_checkInt (value : ℤ) : Behaves (checkInt value) fun _ ↦ True := by
  rw [checkInt]
  split_ifs
  · exact .inl ⟨value, rfl, trivial⟩
  · exact .inr rfl

theorem behaves_leftOver (len ltmp stmp : ℤ) : Behaves (leftOver len ltmp stmp) fun _ ↦ True := by
  rw [leftOver]
  split_ifs
  · exact behaves_checkInt _
  · exact .inl ⟨ltmp, rfl, trivial⟩

theorem behaves_readContent (len : ℤ) (stream : List UInt8) :
    Behaves (readContent len stream) fun _ ↦ True := by
  rw [readContent]
  split_ifs
  · exact (behaves_checkInt _).bind fun _ _ ↦ .inl ⟨_, rfl, trivial⟩
  · exact .inl ⟨_, rfl, trivial⟩

/-- The stream gets no longer, and it gets shorter where a node is returned. -/
def Consumes (stream : List UInt8) (received : Received) : Prop :=
  received.stream.length ≤ stream.length ∧
    (received.node ≠ .null → received.stream.length < stream.length)

variable {stream : List UInt8}

theorem length_readTagno {tagno : BitVec 32} {len : ℕ} {long : BitVec 32 × ℕ × List UInt8}
    (h : readTagno stream tagno len = some long) : long.2.2.length < stream.length := by
  induction stream generalizing tagno len with
  | nil => cases h
  | cons ch stream ih =>
    rw [readTagno] at h
    split_ifs at h
    · cases h
      exact Nat.lt_succ_self _
    · exact (ih h).trans (Nat.lt_succ_self _)

theorem length_getTagFromStream {tagged : StreamTag × List UInt8}
    (h : getTagFromStream stream = some tagged) : tagged.2.length < stream.length := by
  cases stream with
  | nil => cases h
  | cons ch stream =>
    rw [getTagFromStream] at h
    split_ifs at h
    · cases h
      rw [List.length_tail, List.length_cons]
      omega
    · obtain ⟨long, hlong, rfl⟩ := Option.map_eq_some_iff.mp h
      exact (length_readTagno hlong).trans (Nat.lt_succ_self _)
    · cases h
      exact Nat.lt_succ_self _

theorem length_getLenFromStream (size : ℤ) (stream : List UInt8) :
    (getLenFromStream size stream).2.2.length ≤ stream.length := by
  cases stream with
  | nil => exact le_rfl
  | cons ch stream =>
    rw [getLenFromStream]
    split_ifs <;> simp
    omega

theorem childLoop_behaves {get : ℤ → List UInt8 → Exec Received} {depth : ℕ}
    (hget : ∀ size stream, stream.length < depth → Behaves (get size stream) (Consumes stream))
    (len : ℤ) (ltmp stmp runningSize : ℤ) (hdepth : stream.length < depth)
    (hfuel : stream.length < fuel) : Behaves (childLoop get len fuel ltmp stmp runningSize stream)
      fun rest ↦ rest.2.2.length ≤ stream.length := by
  induction fuel generalizing ltmp stmp runningSize stream with
  | zero => omega
  | succ fuel ih =>
    refine (hget stmp stream hdepth).bind fun child hchild ↦ (behaves_checkInt _).bind fun running _ ↦ ?_
    by_cases hnull : child.node = .null
    · rw [if_pos hnull]
      exact .inl ⟨_, rfl, hchild.1⟩
    · have hless := hchild.2 hnull
      rw [if_neg hnull]
      refine (behaves_leftOver len ltmp child.size).bind fun left _ ↦ ?_
      split_ifs
      · exact .inl ⟨_, rfl, hchild.1⟩
      · refine (ih left child.size running (by omega) (by omega)).bind fun rest hrest ↦ ?_
        exact .inl ⟨_, rfl, hrest.trans hchild.1⟩

/-- On every stream the reading ends, with no more calls in one another and no more passes of a loop than
there are octets, and a tree that is returned has taken some of them. -/
theorem getPDUFromStream_behaves (fuel : ℕ) (size : ℤ) (stream : List UInt8)
    (hfuel : stream.length < fuel) : Behaves (getPDUFromStream fuel size stream) (Consumes stream) := by
  induction fuel generalizing size stream with
  | zero => omega
  | succ fuel ih =>
    rw [getPDUFromStream]
    cases htag : getTagFromStream stream with
    | none => exact .inl ⟨_, rfl, Nat.zero_le _, fun hne ↦ absurd rfl hne⟩
    | some tagged =>
      have hlt := length_getTagFromStream htag
      simp only [Option.elim_some]
      split_ifs
      · exact .inl ⟨_, rfl, hlt.le, fun hne ↦ absurd rfl hne⟩
      have hle := (length_getLenFromStream tagged.1.size tagged.2).trans_lt hlt
      refine (behaves_checkInt _).bind fun running _ ↦ ?_
      split_ifs
      · refine (behaves_readContent _ _).bind fun content _ ↦ (behaves_checkInt _).bind fun total _ ↦ ?_
        have hdrop (count : ℕ) := (List.drop_sublist count _).length_le.trans_lt hle
        exact .inl ⟨_, rfl, (hdrop _).le, fun _ ↦ hdrop _⟩
      · exact .inl ⟨_, rfl, hle.le, fun _ ↦ hle⟩
      · refine (childLoop_behaves ih _ _ _ _ (by omega) (by omega)).bind fun children hchildren ↦ ?_
        refine .inl ⟨_, rfl, ?_⟩
        cases children.1 with
        | none => exact ⟨hchildren.trans hle.le, fun hne ↦ absurd rfl hne⟩
        | some head => exact ⟨hchildren.trans hle.le, fun _ ↦ hchildren.trans_lt hle⟩

/-- Whatever octets come, `GetPDUFromStream` returns with what it has not read, or a size does not fit in
an `int`. -/
theorem getPDU_behaves (stream : List UInt8) : Behaves (getPDU stream) (Consumes stream) :=
  getPDUFromStream_behaves _ 0 stream (Nat.lt_succ_self _)

end Cheshire.Zpdu
